import CcRpc.MemAllocRuns

/-!
# Which block a request gets

`mem_malloc` looks for the first block of the tree that is greater than the request. A block of
exactly its size is passed over for a larger one, or for NULL.
-/

namespace CcRpc.MemAlloc

open Chain Tiling

variable (A : Arena)

/-- What a request of `want` bytes should get where the ring visits the blocks `l`: a smallest of the
free blocks that are large enough, and NULL only if there is none. -/
def BestFit (want : Nat) (h : Mem) (l : List Nat) : Option (Mem × Nat) → Prop
  | none => False
  | some (h', ptr) =>
    (ptr = 0 → ∀ a ∈ l, h.used a = false → h.size A a < roundedRequest A want) ∧
    (ptr ≠ 0 → ∃ a ∈ l, h.used a = false ∧ ptr = a + heapStructSize A.word ∧ h'.used a = true ∧
      roundedRequest A want ≤ h.size A a ∧
      ∀ c ∈ l, h.used c = false → roundedRequest A want ≤ h.size A c → h.size A a ≤ h.size A c)

variable {A} {s : Sys} {h : Mem} {bs : List Block} {want : Nat}

theorem Represents.free_iff (hR : Represents A h bs) (P : Nat → Nat → Prop) :
    (∀ a ∈ bs.map (·.addr), h.used a = false → P a (h.size A a)) ↔
      ∀ b ∈ bs, b.free = true → P b.addr b.size := by
  rw [List.forall_mem_map]
  apply forall₂_congr
  intro b hb
  rw [hR.used b hb, hR.holds.sizes b hb]
  simp

theorem carve_used {pre post : List Block} {b : Block} {req : Nat} {h' : Mem}
    (hR' : Represents A h' (pre ++ b.carve (minSize A.word) req ++ post)) :
    h'.used b.addr = true := by
  obtain ⟨c, hc, haddr, hused⟩ : ∃ c ∈ b.carve (minSize A.word) req,
      c.addr = b.addr ∧ c.free = false := by
    unfold Block.carve
    split
    · exact ⟨_, List.mem_cons_self, rfl, rfl⟩
    · exact ⟨_, List.mem_cons_self, rfl, rfl⟩
  have hmark := hR'.used c (by simp [hc])
  rw [haddr, hused] at hmark
  exact hmark

/-- The best fit is found exactly where no free block has the size of the request. -/
theorem Represents.bestFit_iff (hR : Represents A h bs) (hwant : want ≠ 0)
    (hfits : Unwrapped A want) :
    BestFit A want h (bs.map (·.addr)) (memMalloc A want h) ↔
      ∀ a ∈ bs.map (·.addr), h.used a = false → h.size A a ≠ roundedRequest A want := by
  have hround := hfits.rounded
  have hw := heapStructSize_bounds A.word
  rw [hR.free_iff fun _ n => n ≠ roundedRequest A want]
  rcases hR.malloc hwant (by omega) with
    ⟨hnull, hno⟩ | ⟨pre, b, post, h', rfl, hb, hlt, hbest, hsome, hR'⟩
  · rw [hnull]
    constructor
    · rintro ⟨hsmall, -⟩ b hb hfree
      rw [hR.free_iff fun _ n => n < roundedRequest A want] at hsmall
      have hlt := hsmall rfl b hb hfree
      omega
    · intro hexact
      refine ⟨fun _ => (hR.free_iff fun _ n => n < roundedRequest A want).mpr ?_, fun hne =>
        absurd rfl hne⟩
      intro b hb hfree
      have hle := hno b hb hfree
      have hne := hexact b hb hfree
      omega
  · rw [hsome]
    constructor
    · rintro ⟨-, htaken⟩ c hc hfree heq
      obtain ⟨a, -, -, hptr, -, -, hmin⟩ := htaken (by omega)
      obtain rfl : a = b.addr := by omega
      have hle := (hR.free_iff fun _ n => roundedRequest A want ≤ n →
        h.size A b.addr ≤ n).mp hmin c hc hfree (by omega)
      rw [hR.holds.sizes b (by simp)] at hle
      omega
    · intro hexact
      refine ⟨fun hzero => absurd hzero (by omega), fun _ => ⟨b.addr, ?_, ?_, rfl, ?_, ?_, ?_⟩⟩
      · exact List.mem_map_of_mem (by simp)
      · rw [hR.used b (by simp), hb]
        rfl
      · exact carve_used hR'
      · rw [hR.holds.sizes b (by simp)]
        omega
      · rw [hR.holds.sizes b (by simp)]
        apply (hR.free_iff fun _ n => roundedRequest A want ≤ n → b.size ≤ n).mpr
        intro c hc hfree hle
        have hne := hexact c hc hfree
        exact hbest c hc hfree (by omega)

theorem readyMem_fresh {h : Mem} (hprev : h.prev A.cacheNode = 0) (hsize : h.allSize = configHeap) :
    ∃ h', readyMem A h = some h' ∧ Represents A h' [A.firstBlock] := by
  obtain ⟨h', hinit, hR⟩ := memInit_represents (A := A) hsize
  exact ⟨h', by rw [readyMem, if_pos hprev, hinit], hR⟩

theorem reached_represents {calls : List Call}
    (hcalls : Runs.Along (step A) (Allowed A) Sys.initial calls)
    (hrun : Runs.run (step A) Sys.initial calls = some s) :
    ∃ h bs, readyMem A s.mem = some h ∧ Represents A h bs := by
  obtain ⟨s', hrun', hend⟩ := (fresh_initial A).run hcalls
  obtain rfl := Option.some.inj (hrun.symm.trans hrun')
  rcases hend with ⟨-, hF⟩ | ⟨bs, hI⟩
  · obtain ⟨h, hready, hR⟩ := readyMem_fresh hF.prev hF.allSize
    exact ⟨h, _, hready, hR⟩
  · exact ⟨s.mem, bs, hI.represents.holds.readyMem, hI.represents⟩

theorem memMalloc_ready (hwant : want ≠ 0) (hready : readyMem A s.mem = some h)
    (hR : Represents A h bs) : memMalloc A want s.mem = memMalloc A want h := by
  rw [memMalloc, memMalloc, hready, hR.holds.readyMem, if_neg hwant, if_neg hwant]

/-- In every state that requests that do not wrap and releases leave, a request for a byte or more
gets the best fit exactly if no free block has the size it is rounded to. -/
theorem memMalloc_bestFit_iff (A : Arena) {calls : List Call}
    (hcalls : Runs.Along (step A) (Allowed A) Sys.initial calls) {s : Sys}
    (hrun : Runs.run (step A) Sys.initial calls = some s) {want : Nat} (hwant : want ≠ 0)
    (hfits : Unwrapped A want) :
    ∃ h l, readyMem A s.mem = some h ∧ Ring h.next h.prev A.cacheNode l ∧
      (BestFit A want h l (memMalloc A want s.mem) ↔
        ∀ a ∈ l, h.used a = false → h.size A a ≠ roundedRequest A want) := by
  obtain ⟨h, bs, hready, hR⟩ := reached_represents hcalls hrun
  refine ⟨h, _, hready, hR.holds.ring, ?_⟩
  rw [memMalloc_ready hwant hready hR]
  exact hR.bestFit_iff hwant hfits

/-- A first request. -/
theorem memMalloc_bestFit_small : ∃ h l, readyMem Arena.low Mem.initial = some h ∧
    Ring h.next h.prev Arena.low.cacheNode l ∧
      (BestFit Arena.low 100 h l (memMalloc Arena.low 100 Mem.initial) ↔
        ∀ a ∈ l, h.used a = false → h.size Arena.low a ≠ roundedRequest Arena.low 100) := by
  have hfits : Unwrapped Arena.low 100 := by
    unfold Unwrapped
    decide
  have hcalls : Runs.Along (step Arena.low) (Allowed Arena.low) Sys.initial [] := trivial
  exact memMalloc_bestFit_iff Arena.low hcalls rfl (by decide) hfits

/-- A fresh arena of 10240 bytes has no room for 10168 bytes and the header. -/
theorem memMalloc_exact_refused : ¬ ∀ (A : Arena) (calls : List Call),
    Runs.Along (step A) (Allowed A) Sys.initial calls → ∀ s,
      Runs.run (step A) Sys.initial calls = some s → ∀ want, want ≠ 0 → Unwrapped A want →
      ∃ h l, readyMem A s.mem = some h ∧ Ring h.next h.prev A.cacheNode l ∧
        BestFit A want h l (memMalloc A want s.mem) := by
  intro hclaim
  have hfits : Unwrapped Arena.low 10168 := by
    unfold Unwrapped
    decide
  obtain ⟨h, l, hready, hring, hbest⟩ :=
    hclaim Arena.low [] trivial Sys.initial rfl 10168 (by decide) hfits
  obtain ⟨h₁, hready₁, hR⟩ := readyMem_fresh (A := Arena.low) (h := Mem.initial) rfl rfl
  obtain rfl := Option.some.inj (hready₁.symm.trans hready)
  have hround : roundedRequest Arena.low 10168 = 10240 := by decide
  have hsize : Arena.low.firstBlock.size = 10240 := by decide
  -- the only block is not larger than the request
  have hnull : memMalloc Arena.low 10168 h₁ = some (h₁, 0) := by
    rcases hR.malloc (by decide : 10168 ≠ 0) (by decide) with
      ⟨hnull, -⟩ | ⟨pre, b, post, h', hbs, -, hlt, -⟩
    · exact hnull
    · have hb : b ∈ [Arena.low.firstBlock] := by simp [hbs]
      rw [List.mem_singleton.mp hb, hround, hsize] at hlt
      exact absurd hlt (Nat.lt_irrefl _)
  have hsame := memMalloc_ready (s := Sys.initial) (by decide : 10168 ≠ 0) hready₁ hR
  rw [hsame, hnull] at hbest
  have hmem : Arena.low.start ∈ l := by
    have hfirst : l.headD Arena.low.cacheNode = Arena.low.start :=
      hring.forth.first.symm.trans hR.holds.ring.forth.first
    have hin := headD_mem Arena.low.cacheNode l
    rw [hfirst] at hin
    exact List.mem_of_ne_of_mem (by decide) hin
  have hused : h₁.used Arena.low.start = false := hR.used Arena.low.firstBlock (by simp)
  have hlt := hbest.1 rfl _ hmem hused
  rw [hround, show h₁.size Arena.low Arena.low.start = 10240 from
    hR.holds.sizes Arena.low.firstBlock (by simp)] at hlt
  exact Nat.lt_irrefl _ hlt

end CcRpc.MemAlloc
