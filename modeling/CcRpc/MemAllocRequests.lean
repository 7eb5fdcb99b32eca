import CcRpc.HeapRequests
import CcRpc.MemAllocFit

/-!
# Requests near the end of `size_t`, in the size-tree allocator

`mem_malloc` adds its header and the alignment without a check, as `heap_malloc` does. Here too a
request that wraps gets a block that is too small for it, unless not even that is there.
-/

namespace CcRpc.MemAlloc

open Chain Tiling

variable (A : Arena)

/-- What `mem_malloc(n)` should do: return NULL and leave the heap as it is, or return `n` bytes; in
both cases ring and tree are in step afterwards. -/
def Served (s : Sys) (n : Nat) : Prop :=
  ∃ h' ptr, memMalloc A n s.mem = some (h', ptr) ∧
    (ptr = 0 → h' = s.mem ∨ readyMem A s.mem = some h') ∧
    (ptr ≠ 0 → n + heapStructSize A.word ≤ h'.size A (ptr - heapStructSize A.word)) ∧
    (n ≠ 0 → ∃ l, Consistent A ⟨h', if ptr = 0 then s.live else ⟨ptr, n⟩ :: s.live⟩ l)

/-- The request does not wrap, or no free block is larger than what it wraps to. -/
def RequestFits (s : Sys) (n : Nat) : Prop :=
  Unwrapped A n ∨ ∃ h l, readyMem A s.mem = some h ∧ Ring h.next h.prev A.cacheNode l ∧
    ∀ a ∈ l, h.used a = false → h.size A a ≤ roundedRequest A n

/-- Every request of a run is of that kind. -/
def CallFits (s : Sys) : Call → Prop
  | .malloc n => RequestFits A s n
  | call => Allowed A s call

variable {A} {s : Sys} {h : Mem} {bs : List Block} {n : Nat}

theorem Consistent.size_le {l : List Nat} (hC : Consistent A s l) {g : Grant} (hg : g ∈ s.live)
    {a : Nat} (hptr : g.ptr = a + heapStructSize A.word) : s.mem.size A a ≤ configHeap := by
  have hbounds := hC.tiles.bounds ((hC.live a).mpr ⟨g, hg, hptr⟩).1
  have hstart := start_bounds A
  dsimp only [id] at hbounds
  omega

theorem Represents.malloc_null (hR : Represents A h bs) (hn : n ≠ 0)
    (hsmall : ∀ b ∈ bs, b.free = true → b.size ≤ roundedRequest A n) :
    memMalloc A n h = some (h, 0) := by
  rw [memMalloc, if_neg hn]
  dsimp only
  rw [hR.holds.readyMem]
  rcases hR.holds.findBlock (roundedRequest A n) with ⟨hfind, -⟩ | ⟨b, hb, hfree, -, hlt, -⟩
  · rw [Option.bind_eq_bind, Option.bind_some, hfind]
    rfl
  · exact absurd (hsmall b hb hfree) (Nat.not_le.mpr hlt)

theorem takeBlock_ptr {want find : Nat} {h' : Mem} {ptr : Nat}
    (htake : takeBlock A want find h = some (h', ptr)) :
    ptr = A.containerOf find + heapStructSize A.word := by
  unfold takeBlock at htake
  obtain ⟨h₁, -, htake⟩ := Option.bind_eq_some_iff.mp htake
  dsimp only at htake
  split at htake
  · obtain ⟨h₂, -, htake⟩ := Option.bind_eq_some_iff.mp htake
    rw [Option.pure_def, Option.some_inj, Prod.mk.injEq] at htake
    exact htake.2.symm
  · rw [Option.bind_eq_bind, Option.bind_some, Option.pure_def, Option.some_inj,
      Prod.mk.injEq] at htake
    exact htake.2.symm

/-- A request larger than the arena is not served, unless nothing is found for it. -/
theorem Represents.not_served (hR : Represents A h bs) (hn : configHeap < n) {b : Block}
    (hb : b ∈ bs) (hfree : b.free = true) (hlt : roundedRequest A n < b.size) {h' : Mem}
    {ptr : Nat} (hmalloc : memMalloc A n h = some (h', ptr)) {live : List Grant} {l : List Nat}
    (hC : Consistent A ⟨h', if ptr = 0 then live else ⟨ptr, n⟩ :: live⟩ l) : False := by
  have hw := heapStructSize_bounds A.word
  rw [memMalloc, if_neg (by omega)] at hmalloc
  dsimp only at hmalloc
  rw [hR.holds.readyMem, Option.bind_eq_bind, Option.bind_some] at hmalloc
  rcases hR.holds.findBlock (roundedRequest A n) with ⟨-, hno⟩ | ⟨c, -, -, hfind, -, -⟩
  · exact absurd (hno b hb hfree) (Nat.not_le.mpr hlt)
  · rw [hfind, Option.bind_eq_bind, Option.bind_some] at hmalloc
    have hptr := takeBlock_ptr hmalloc
    rw [if_neg (by omega)] at hC
    have hasked := hC.asked ⟨ptr, n⟩ List.mem_cons_self
    have hsize := hC.size_le (g := ⟨ptr, n⟩) List.mem_cons_self hptr
    rw [Sys.payload, hptr, Nat.add_sub_cancel] at hasked
    dsimp only at hasked hsize
    omega

theorem Unwrapped.of_le {n : Nat} (hn : ¬ Unwrapped A n) : configHeap < n := by
  have hw := heapStructSize_bounds A.word
  have hword := A.word.two_pow_le
  unfold Unwrapped at hn
  simp only [alignmentByte] at hn
  simp only [configHeap]
  omega

theorem Inv.malloc_fits (hready : readyMem A s.mem = some h) (hI : Inv A ⟨h, s.live⟩ bs) (hn : n ≠ 0)
    (hfits : RequestFits A s n) :
    ∃ h' ptr bs', memMalloc A n s.mem = some (h', ptr) ∧ (ptr = 0 → h' = h) ∧
      (ptr ≠ 0 → n + heapStructSize A.word ≤ h'.size A (ptr - heapStructSize A.word)) ∧
      Inv A ⟨h', if ptr = 0 then s.live else ⟨ptr, n⟩ :: s.live⟩ bs' := by
  have hw := heapStructSize_bounds A.word
  have hR := hI.represents
  rw [memMalloc_ready hn hready hR]
  by_cases hunwrapped : Unwrapped A n
  · obtain ⟨s', bs', hstep, hI'⟩ := hI.malloc hn hunwrapped
    obtain ⟨⟨h', ptr⟩, hmalloc, rfl⟩ := Option.map_eq_some_iff.mp hstep
    refine ⟨h', ptr, bs', hmalloc, ?_, ?_, hI'⟩
    · rintro rfl
      have hround := hunwrapped.rounded
      rcases hR.malloc hn (by omega) with ⟨hnull, -⟩ | ⟨pre, b, post, h'', -, -, -, -, hsome, -⟩
      · rw [hmalloc, Option.some_inj, Prod.mk.injEq] at hnull
        exact hnull.1
      · rw [hmalloc, Option.some_inj, Prod.mk.injEq] at hsome
        omega
    · intro hne
      dsimp only at hI'
      rw [if_neg hne] at hI'
      obtain ⟨b, hb, -, hptr, hsize, -⟩ := hI'.header List.mem_cons_self
      dsimp only at hptr hsize
      rw [hptr, Nat.add_sub_cancel, hI'.represents.holds.sizes b hb]
      exact hsize
  · obtain ⟨h₁, l, hready₁, hring, hsmall⟩ := hfits.resolve_left hunwrapped
    obtain rfl := Option.some.inj (hready.symm.trans hready₁)
    rw [hring.unique hR.holds.ring] at hsmall
    have hnull := hR.malloc_null hn ((hR.free_iff fun _ n' => n' ≤ roundedRequest A n).mp hsmall)
    exact ⟨h, 0, bs, hnull, fun _ => rfl, fun hne => absurd rfl hne, hI⟩

theorem Inv.served_iff (hready : readyMem A s.mem = some h) (hI : Inv A ⟨h, s.live⟩ bs) (n : Nat) :
    Served A s n ↔ RequestFits A s n := by
  have hR := hI.represents
  constructor
  · rintro ⟨h', ptr, hmalloc, -, -, hC⟩
    by_cases hunwrapped : Unwrapped A n
    · exact Or.inl hunwrapped
    · have hlarge := Unwrapped.of_le hunwrapped
      obtain ⟨l, hC⟩ := hC (by omega)
      rw [memMalloc_ready (by omega) hready hR] at hmalloc
      refine Or.inr ⟨h, _, hready, hR.holds.ring, ?_⟩
      apply (hR.free_iff fun _ n' => n' ≤ roundedRequest A n).mpr
      intro b hb hfree
      by_contra hgt
      exact hR.not_served hlarge hb hfree (Nat.not_le.mp hgt) hmalloc hC
  · intro hfits
    by_cases hn : n = 0
    · refine ⟨s.mem, 0, ?_, fun _ => Or.inl rfl, fun hne => absurd rfl hne, fun hne => absurd hn hne⟩
      rw [memMalloc, if_pos hn]
    · obtain ⟨h', ptr, bs', hmalloc, hnull, hblock, hI'⟩ := hI.malloc_fits hready hn hfits
      exact ⟨h', ptr, hmalloc, fun hzero => Or.inr (hnull hzero ▸ hready), hblock,
        fun _ => ⟨_, hI'.consistent⟩⟩

/-- The heap before and after `mem_init`. -/
def Reached (A : Arena) (s : Sys) : Prop := Fresh A s ∨ ∃ bs, Inv A s bs

theorem Reached.ready (hs : Reached A s) :
    ∃ h bs, readyMem A s.mem = some h ∧ Inv A ⟨h, s.live⟩ bs := by
  rcases hs with hF | ⟨bs, hI⟩
  · obtain ⟨h, hready, hR⟩ := readyMem_fresh hF.prev hF.allSize
    refine ⟨h, [A.firstBlock], hready, ?_⟩
    rw [hF.live]
    refine ⟨hR, List.isChain_singleton _, ?_, List.nodup_nil, fun g hg => by cases hg⟩
    intro a
    simp [usedAddrs_cons, Arena.firstBlock]
  · exact ⟨s.mem, bs, hI.represents.holds.readyMem, hI⟩

theorem Reached.step {call : Call} {s' : Sys} (hs : Reached A s) (hcall : CallFits A s call)
    (hstep : MemAlloc.step A s call = some s') : Reached A s' := by
  have hallowed : Allowed A s call → (∀ n, call = .malloc n → n = 0) → Reached A s' := by
    intro hallowed hzero
    rcases hs with hF | ⟨bs, hI⟩
    · obtain ⟨s₁, hstep₁, hF'⟩ := hF.step hallowed hzero
      obtain rfl := Option.some.inj (hstep.symm.trans hstep₁)
      exact Or.inl hF'
    · obtain ⟨s₁, hstep₁, hI'⟩ := hI.step hallowed
      obtain rfl := Option.some.inj (hstep.symm.trans hstep₁)
      exact Or.inr hI'
  cases call with
  | malloc n =>
    by_cases hn : n = 0
    · apply hallowed
      · change Unwrapped A n
        have hw := heapStructSize_bounds A.word
        have hword := A.word.two_pow_le
        unfold Unwrapped
        simp only [alignmentByte]
        omega
      · intro n' heq
        cases heq
        exact hn
    · obtain ⟨h, bs, hready, hI⟩ := hs.ready
      obtain ⟨h', ptr, bs', hmalloc, -, -, hI'⟩ := hI.malloc_fits hready hn hcall
      rw [MemAlloc.step, hmalloc] at hstep
      obtain rfl := Option.some.inj hstep
      exact Or.inr ⟨bs', hI'⟩
  | free ptr => exact hallowed hcall (fun n heq => by cases heq)
  | store h => exact hallowed hcall (fun n heq => by cases heq)

theorem reached_run {calls : List Call}
    (hcalls : Runs.Along (MemAlloc.step A) (CallFits A) Sys.initial calls)
    (hrun : Runs.run (MemAlloc.step A) Sys.initial calls = some s) : Reached A s :=
  Runs.run_induction (fun _ _ _ hs hcall hstep => hs.step hcall hstep) (Or.inl (fresh_initial A))
    hcalls hrun

end CcRpc.MemAlloc

namespace CcRpc

/-- In every state of a run whose requests meet the condition a request of any size is served exactly
if it meets the condition too: it does not wrap, or nothing is found for what it wraps to. -/
theorem requests_served_iff {A : Arena} {ops : List HeapOp} {s : HeapSys}
    (hops : Runs.Along (heapStep A) (HeapOpFits A) HeapSys.initial ops)
    (hrun : Runs.run (heapStep A) HeapSys.initial ops = some s)
    {B : MemAlloc.Arena} {calls : List MemAlloc.Call} {t : MemAlloc.Sys}
    (hcalls : Runs.Along (MemAlloc.step B) (MemAlloc.CallFits B) MemAlloc.Sys.initial calls)
    (hrun' : Runs.run (MemAlloc.step B) MemAlloc.Sys.initial calls = some t) (n : Nat) :
    (HeapServed A s n ↔ HeapRequestFits A s n) ∧
      (MemAlloc.Served B t n ↔ MemAlloc.RequestFits B t n) := by
  constructor
  · obtain ⟨bs, hI⟩ := heapApart_run_fits hops hrun
    exact hI.served_iff n
  · obtain ⟨h, bs, hready, hI⟩ := (MemAlloc.reached_run hcalls hrun').ready
    exact hI.served_iff hready n

/-- A first request of 100 bytes to either. -/
theorem requests_served_hundred : HeapServed Arena.low HeapSys.initial 100 ∧
    MemAlloc.Served MemAlloc.Arena.low MemAlloc.Sys.initial 100 := by
  have hheap : Runs.Along (heapStep Arena.low) (HeapOpFits Arena.low) HeapSys.initial [] := trivial
  have hmem : Runs.Along (MemAlloc.step MemAlloc.Arena.low) (MemAlloc.CallFits MemAlloc.Arena.low)
      MemAlloc.Sys.initial [] := trivial
  have hboth := requests_served_iff hheap rfl hmem rfl 100
  constructor
  · apply hboth.1.mpr
    left
    unfold Unwrapped
    decide
  · apply hboth.2.mpr
    left
    unfold MemAlloc.Unwrapped
    decide

/-- An aligned `all_heap` on a 32-bit host. -/
def Arena.low32 : Arena where
  word := .w32
  allHeap := 0x100000
  head := 0x1000
  allHeap_pos := Arena.low.allHeap_pos
  allHeap_fits := by decide
  head_apart := by decide

/-- On a 32-bit host a `size` of `0xFFFFFFF8` in a request for `fs_read` makes `heap_malloc` hand out
0 bytes, and so does `mem_malloc` on a 64-bit host for `2 ^ 64 - 72`. -/
theorem requests_wrap :
    (¬ ∀ (A : Arena) (ops : List HeapOp) (s : HeapSys),
      Runs.run (heapStep A) HeapSys.initial ops = some s →
      ∀ size : UInt32, HeapServed A s size.toNat) ∧
    ¬ ∀ (A : MemAlloc.Arena) (calls : List MemAlloc.Call) (s : MemAlloc.Sys),
      Runs.Along (MemAlloc.step A) (MemAlloc.CallFits A) MemAlloc.Sys.initial calls →
      Runs.run (MemAlloc.step A) MemAlloc.Sys.initial calls = some s →
      ∀ n < 2 ^ A.word.bits, MemAlloc.Served A s n := by
  constructor
  · intro hclaim
    have hserved := hclaim Arena.low32 [] HeapSys.initial rfl 0xFFFFFFF8
    rcases ((heapApart_initial Arena.low32).served_iff _).mp hserved with hfits | hsmall
    · unfold Unwrapped at hfits
      exact absurd hfits (by decide)
    · have hlt := hsmall _ (List.mem_append_right _ List.mem_cons_self)
      rw [show roundedRequest Arena.low32 (0xFFFFFFF8 : UInt32).toNat = 0 by decide] at hlt
      exact Nat.not_lt_zero _ hlt
  · intro hclaim
    have hserved := hclaim MemAlloc.Arena.low [] MemAlloc.Sys.initial trivial rfl (2 ^ 64 - 72)
      (by decide)
    have hreached : MemAlloc.Reached MemAlloc.Arena.low MemAlloc.Sys.initial :=
      Or.inl (MemAlloc.fresh_initial _)
    obtain ⟨h, bs, hready, hI⟩ := hreached.ready
    obtain ⟨h', hready', hR⟩ := MemAlloc.readyMem_fresh (A := MemAlloc.Arena.low)
      (h := MemAlloc.Mem.initial) rfl rfl
    rcases (hI.served_iff hready _).mp hserved with hfits | ⟨h'', l, hready'', hring, hsmall⟩
    · unfold MemAlloc.Unwrapped at hfits
      exact absurd hfits (by decide)
    · obtain rfl := Option.some.inj (hready'.symm.trans hready'')
      rw [hring.unique hR.holds.ring] at hsmall
      have hle := (hR.free_iff fun _ n =>
        n ≤ MemAlloc.roundedRequest MemAlloc.Arena.low (2 ^ 64 - 72)).mp hsmall
          MemAlloc.Arena.low.firstBlock (by simp) rfl
      exact absurd hle (by decide)

end CcRpc
