import CcRpc.Host

/-!
# The heap (`heap.c`)

First fit over a free list that is kept in address order inside the arena it manages. Memory is a
map from addresses to words: a node at `a` has its `next` at `a` and its `block_size` one word
later, so nodes that overlap would also overlap here.
-/

namespace CcRpc

def configHeap : Nat := 1024 * 1024
def alignmentByte : Nat := 0x07

/-- `x & ~ALIGNMENT_BYTE`. -/
def clearAlignment (x : Nat) : Nat := x - (x &&& alignmentByte)

/-- Difference in `size_t`. -/
def WordSize.sub (w : WordSize) (a b : Nat) : Nat := w.sizeT (a + (2 ^ w.bits - b))

theorem WordSize.sub_of_le {w : WordSize} {a b : Nat} (hab : b ≤ a) (ha : a < 2 ^ w.bits) :
    w.sub a b = a - b := by
  have harith : a + (2 ^ w.bits - b) = a - b + 2 ^ w.bits := by omega
  rw [sub, sizeT, harith, Nat.add_mod_right, Nat.mod_eq_of_lt (by omega)]

/-- `heap_struct_size`. -/
def WordSize.heapStructSize (w : WordSize) : Nat := clearAlignment (2 * w.bytes + alignmentByte)

/-- `MIN_SIZE`. -/
def WordSize.minSize (w : WordSize) : Nat := w.heapStructSize <<< 1

/-- Where the linker put `all_heap` and `the_heap`. They are two objects in one address space. -/
structure Arena where
  word : WordSize
  allHeap : Nat
  head : Nat
  allHeap_pos : 0 < allHeap
  allHeap_fits : allHeap + configHeap < 2 ^ word.bits
  head_apart : head + word.heapStructSize ≤ allHeap ∨ allHeap + configHeap ≤ head

/-- Memory and the fields of `the_heap` that are not a node. -/
structure Heap where
  mem : Nat → Nat
  tail : Nat
  allSize : Nat

/-- The static initial value; `tail` is NULL. -/
def Heap.initial : Heap where
  mem := fun _ => 0
  tail := 0
  allSize := configHeap

def Heap.next (h : Heap) (node : Nat) : Nat := h.mem node
def Heap.blockSize (A : Arena) (h : Heap) (node : Nat) : Nat := h.mem (node + A.word.bytes)

def Heap.setNext (h : Heap) (node v : Nat) : Heap := { h with mem := Function.update h.mem node v }
def Heap.setBlockSize (A : Arena) (h : Heap) (node v : Nat) : Heap :=
  { h with mem := Function.update h.mem (node + A.word.bytes) v }

variable (A : Arena)

/-- `start`, the first aligned address of `all_heap`. -/
def Arena.start : Nat :=
  if A.allHeap &&& alignmentByte ≠ 0 then clearAlignment (A.allHeap + alignmentByte) else A.allHeap

/-- `heap_init`. Casts to `uint32_t` do not change sizes up to `CONFIG_HEAP`. -/
def heapInit (h : Heap) : Heap :=
  let start := A.start
  let allSize :=
    if A.allHeap &&& alignmentByte ≠ 0 then A.word.sub h.allSize (start - A.allHeap) else h.allSize
  let h := h.setNext A.head start
  let h := h.setBlockSize A A.head 0
  let rawEnd := start + allSize - A.word.heapStructSize
  let (tail, allSize) :=
    if rawEnd &&& alignmentByte ≠ 0 then
      (clearAlignment rawEnd, clearAlignment rawEnd - start)
    else (rawEnd, allSize)
  let h := h.setBlockSize A tail 0
  let h := h.setNext tail 0
  let h := h.setNext start tail
  let h := h.setBlockSize A start allSize
  { h with tail := tail, allSize := allSize }

/-- The request with the header added, rounded up to the alignment, in `size_t`. -/
def roundedRequest (n : Nat) : Nat :=
  let size := A.word.sizeT (n + A.word.heapStructSize)
  if size &&& alignmentByte ≠ 0 then
    A.word.sizeT (size + (alignmentByte + 1 - (size &&& alignmentByte)))
  else size

/-- The `while` loop of `real_heap_malloc`: `none` when `fuel` iterations do not end it, and inside
that NULL or the node found with the one before it. -/
def findFit (h : Heap) (size : Nat) : Nat → Nat → Nat → Option (Option (Nat × Nat))
  | 0, _, _ => none
  | fuel + 1, prev, use =>
    if h.blockSize A use < size then
      if h.next use = 0 then some none else findFit h size fuel use (h.next use)
    else some (some (prev, use))

/-- `real_heap_malloc` after its loop found `use` behind `prev`. -/
def takeNode (h : Heap) (size prev use : Nat) : Heap × Nat :=
  let ret := use + A.word.heapStructSize
  let h := h.setNext prev (h.next use)
  let h :=
    if A.word.minSize < A.word.sub (h.blockSize A use) size then
      let new := use + size
      let h := h.setBlockSize A new (A.word.sub (h.blockSize A use) size)
      let h := h.setBlockSize A use size
      let h := h.setNext new (h.next prev)
      h.setNext prev new
    else h
  let h := { h with allSize := A.word.sub h.allSize (h.blockSize A use) }
  (h.setNext use 0, ret)

/-- `heap_init` on the first request. -/
def readyHeap (h : Heap) : Heap := if h.tail = 0 then heapInit A h else h

/-- `real_heap_malloc`; a list of nodes in the arena is shorter than `configHeap`. -/
def realHeapMalloc (h : Heap) (n : Nat) : Option (Heap × Nat) :=
  let size := roundedRequest A n
  let h := readyHeap A h
  match findFit A h size configHeap A.head (h.next A.head) with
  | none => none
  | some none => some (h, 0)
  | some (some (prev, use)) => some (takeNode A h size prev use)

/-- The `for` loop of `insert_free_block`: the last node before `node`. -/
def findPlace (h : Heap) (node : Nat) : Nat → Nat → Option Nat
  | 0, _ => none
  | fuel + 1, iter =>
    if h.next iter < node then findPlace h node fuel (h.next iter) else some iter

/-- `insert_free_block`: `node` takes in the free node right behind it. -/
def absorbNext (h : Heap) (node : Nat) : Heap :=
  if node + h.blockSize A node = h.next node then
    if h.next node ≠ h.tail then
      let h := h.setBlockSize A node
        (A.word.sizeT (h.blockSize A node + h.blockSize A (h.next node)))
      h.setNext node (h.next (h.next node))
    else h.setNext node h.tail
  else h

/-- `insert_free_block`: `iter` takes in `node` if it is right behind it. -/
def absorbInto (h : Heap) (iter node : Nat) : Heap :=
  if iter + h.blockSize A iter = node then
    let h := h.setBlockSize A iter (A.word.sizeT (h.blockSize A iter + h.blockSize A node))
    h.setNext iter (h.next node)
  else h

/-- `insert_free_block` after its loop stopped at `iter`. -/
def linkNode (h : Heap) (node iter : Nat) : Heap :=
  let h := h.setNext node (h.next iter)
  let h := h.setNext iter node
  let h := absorbNext A h node
  absorbInto A h iter node

def insertFreeBlock (h : Heap) (node : Nat) : Option Heap :=
  (findPlace h node configHeap A.head).map fun iter => linkNode A h node iter

/-- `real_heap_free`. -/
def realHeapFree (h : Heap) (ptr : Nat) : Option Heap :=
  if ptr = 0 then some h
  else
    let node := ptr - A.word.heapStructSize
    insertFreeBlock A { h with allSize := A.word.sizeT (h.allSize + h.blockSize A node) } node

theorem heapStructSize_eq (w : WordSize) : w.heapStructSize = 2 * w.bytes := by
  cases w <;> decide

theorem and_alignmentByte (x : Nat) : x &&& alignmentByte = x % 8 := by
  rw [alignmentByte, show (0x07 : Nat) = 2 ^ 3 - 1 from rfl, Nat.and_two_pow_sub_one_eq_mod]

theorem clearAlignment_eq (x : Nat) : clearAlignment x = x - x % 8 := by
  rw [clearAlignment, and_alignmentByte]

theorem WordSize.bytes_eq (w : WordSize) : w.bytes = 4 ∨ w.bytes = 8 := by
  cases w <;> decide

/-- A size rounded up to the alignment, in `size_t`. -/
def WordSize.roundUp (w : WordSize) (size : Nat) : Nat :=
  if size &&& alignmentByte ≠ 0 then
    w.sizeT (size + (alignmentByte + 1 - (size &&& alignmentByte)))
  else size

theorem WordSize.roundUp_eq {w : WordSize} {size : Nat} (hsize : size + alignmentByte < 2 ^ w.bits) :
    size ≤ w.roundUp size ∧ w.roundUp size % 8 = 0 ∧ w.roundUp size < size + 8 := by
  unfold roundUp
  simp only [and_alignmentByte]
  simp only [alignmentByte] at hsize ⊢
  split
  · next hmis =>
    rw [sizeT_of_lt (by omega)]
    omega
  · next hal => omega

theorem WordSize.roundUp_mod (w : WordSize) (size : Nat) : w.roundUp size % 8 = 0 := by
  have hbits : 2 ^ w.bits % 8 = 0 := by
    cases w <;> decide
  unfold roundUp
  simp only [and_alignmentByte]
  simp only [alignmentByte]
  split
  · next hmis =>
    rw [sizeT, Nat.mod_mod_of_dvd _ (Nat.dvd_of_mod_eq_zero hbits)]
    omega
  · next hal => omega

theorem roundedRequest_eq {n : Nat}
    (hn : n + A.word.heapStructSize + alignmentByte < 2 ^ A.word.bits) :
    n + A.word.heapStructSize ≤ roundedRequest A n ∧ roundedRequest A n % 8 = 0 ∧
      roundedRequest A n < n + A.word.heapStructSize + 8 := by
  have hround : roundedRequest A n = A.word.roundUp (n + A.word.heapStructSize) := by
    change A.word.roundUp (A.word.sizeT (n + A.word.heapStructSize)) = _
    rw [WordSize.sizeT_of_lt (by omega)]
  rw [hround]
  exact WordSize.roundUp_eq hn

theorem roundedRequest_mod (n : Nat) : roundedRequest A n % 8 = 0 := WordSize.roundUp_mod ..

/-- Two nodes that do not overlap. -/
def Arena.Apart (a c : Nat) : Prop :=
  a + A.word.heapStructSize ≤ c ∨ c + A.word.heapStructSize ≤ a

/-- Nodes of which no two overlap. -/
def Arena.Separate (S : Nat → Prop) : Prop := ∀ a c, S a → S c → a = c ∨ A.Apart a c

section Fields

variable {A} {h : Heap} {a c v : Nat} {S : Nat → Prop}

theorem Arena.Apart.ne (hac : A.Apart a c) : a ≠ c := by
  rcases A.word.bytes_eq with hw | hw <;> simp only [Arena.Apart, heapStructSize_eq] at hac <;> omega

theorem Heap.next_setNext : (h.setNext a v).next c = if c = a then v else h.next c :=
  Function.update_apply ..

theorem Heap.blockSize_setBlockSize :
    (h.setBlockSize A a v).blockSize A c = if c = a then v else h.blockSize A c := by
  simp [blockSize, setBlockSize, Function.update_apply]

theorem Heap.blockSize_setNext (hS : A.Separate S) (ha : S a) (hc : S c) :
    (h.setNext a v).blockSize A c = h.blockSize A c := by
  refine Function.update_of_ne ?_ ..
  have hac := hS a c ha hc
  simp only [Arena.Apart, heapStructSize_eq] at hac
  rcases A.word.bytes_eq with hw | hw <;> omega

theorem Heap.next_setBlockSize (hS : A.Separate S) (ha : S a) (hc : S c) :
    (h.setBlockSize A a v).next c = h.next c := by
  refine Function.update_of_ne ?_ ..
  have hac := hS a c ha hc
  simp only [Arena.Apart, heapStructSize_eq] at hac
  rcases A.word.bytes_eq with hw | hw <;> omega

theorem Heap.next_mk (t n : Nat) : (Heap.mk h.mem t n).next a = h.next a := rfl
theorem Heap.blockSize_mk (t n : Nat) :
    (Heap.mk h.mem t n).blockSize A a = h.blockSize A a := rfl
@[simp] theorem Heap.tail_setNext : (h.setNext a v).tail = h.tail := rfl
@[simp] theorem Heap.tail_setBlockSize : (h.setBlockSize A a v).tail = h.tail := rfl
@[simp] theorem Heap.allSize_setNext : (h.setNext a v).allSize = h.allSize := rfl
@[simp] theorem Heap.allSize_setBlockSize : (h.setBlockSize A a v).allSize = h.allSize := rfl

end Fields

end CcRpc
