import CcRpc.HeapCanonical
import CcRpc.Lib.Runs
import CcRpc.MemAllocCalls

/-!
# Runs of the size-tree allocator

Any sequence of `mem_malloc` and of `mem_free` of live pointers, in which the owners of live payloads
may store in them what they like. The ring and the tree stay in step.
-/

namespace CcRpc.MemAlloc

open Chain Tiling

/-- A pointer that was handed out, and what was asked for. -/
structure Grant where
  ptr : Nat
  want : Nat

structure Sys where
  mem : Mem
  live : List Grant

/-- Before the first call. -/
def Sys.initial : Sys := ⟨Mem.initial, []⟩

inductive Call where
  | malloc (want : Nat)
  | free (ptr : Nat)
  /-- Stores of the owners of live payloads; memory afterwards. -/
  | store (mem : Mem)

variable (A : Arena)

def step (s : Sys) : Call → Option Sys
  | .malloc want => (memMalloc A want s.mem).map fun (h, ptr) =>
      ⟨h, if ptr = 0 then s.live else ⟨ptr, want⟩ :: s.live⟩
  | .free ptr => (memFree A ptr s.mem).map fun h => ⟨h, s.live.filter (·.ptr ≠ ptr)⟩
  | .store h => some ⟨h, s.live⟩

/-- Adding the header and the alignment to `want` does not wrap. -/
def Unwrapped (want : Nat) : Prop := want + heapStructSize A.word + alignmentByte < 2 ^ A.word.bits

/-- Memory has changed in live payloads only: the variables of the allocator are the same, and so is
every header that is not in one. -/
structure InPayloads (s : Sys) (h : Mem) : Prop where
  root : h.tree.root = s.mem.tree.root
  allSize : h.allSize = s.mem.allSize
  cacheNext : h.next A.cacheNode = s.mem.next A.cacheNode
  cachePrev : h.prev A.cacheNode = s.mem.prev A.cacheNode
  header : ∀ a, (∀ g ∈ s.live, a + heapNodeSize A.word ≤ g.ptr ∨ g.ptr + g.want ≤ a) →
    h.next a = s.mem.next a ∧ h.prev a = s.mem.prev a ∧ h.used a = s.mem.used a ∧
      h.tree.node (A.iterNode a) = s.mem.tree.node (A.iterNode a)

/-- Requests do not wrap, NULL and live pointers may be freed, and live payloads written. -/
def Allowed (s : Sys) : Call → Prop
  | .malloc want => Unwrapped A want
  | .free ptr => ptr = 0 ∨ ∃ g ∈ s.live, g.ptr = ptr
  | .store h => InPayloads A s h

/-- The bytes behind the header of a live block. -/
def Sys.payload (s : Sys) (g : Grant) : Nat :=
  s.mem.size A (g.ptr - heapStructSize A.word) - heapStructSize A.word

/-- The ring of the blocks `l` and the tree agree. -/
structure Consistent (s : Sys) (l : List Nat) : Prop where
  ring : Ring s.mem.next s.mem.prev A.cacheNode l
  tiles : Tiles id (s.mem.size A) A.start l (A.allHeap + configHeap)
  tree : ∃ T, s.mem.tree.Sound T ∧ s.mem.tree.Sorted T.toList ∧
    T.toList.Perm ((l.filter (!s.mem.used ·)).map A.iterNode)
  apart : l.IsChain fun a b => s.mem.used a = false → s.mem.used b = true
  allSize : s.mem.allSize = ((l.filter (!s.mem.used ·)).map (s.mem.size A)).sum
  live : ∀ a, a ∈ l ∧ s.mem.used a = true ↔ ∃ g ∈ s.live, g.ptr = a + heapStructSize A.word
  aligned : ∀ g ∈ s.live, g.ptr % 8 = 0
  asked : ∀ g ∈ s.live, g.want ≤ s.payload A g
  disjoint : s.live.Pairwise fun g g' =>
    g.ptr + s.payload A g ≤ g'.ptr ∨ g'.ptr + s.payload A g' ≤ g.ptr

/-- `mem_init` has not run. -/
structure Fresh (s : Sys) : Prop where
  prev : s.mem.prev A.cacheNode = 0
  allSize : s.mem.allSize = configHeap
  live : s.live = []

/-- The state stands for blocks of which the used ones are the live ones. -/
structure Inv (s : Sys) (bs : List Block) : Prop where
  represents : Represents A s.mem bs
  apart : NoFreeNeighbours bs
  live : ∀ a, a ∈ usedAddrs bs ↔ ∃ g ∈ s.live, g.ptr = a + heapStructSize A.word
  nodup : (s.live.map Grant.ptr).Nodup
  asked : ∀ g ∈ s.live, ∃ b ∈ bs, b.free = false ∧ g.ptr = b.addr + heapStructSize A.word ∧
    g.want + heapStructSize A.word ≤ b.size

variable {A} {s : Sys} {bs : List Block}

theorem Unwrapped.rounded {want : Nat} (hwant : Unwrapped A want) :
    want + heapStructSize A.word ≤ roundedRequest A want := by
  have hle := (WordSize.roundUp_eq hwant).1
  unfold Unwrapped at hwant
  rw [roundedRequest, WordSize.sizeT_of_lt (by omega)]
  exact hle

theorem usedAddrs_carve (pre post : List Block) {b : Block} (hb : b.free = true)
    (minSize req a : Nat) : a ∈ usedAddrs (pre ++ b.carve minSize req ++ post) ↔
      a = b.addr ∨ a ∈ usedAddrs (pre ++ b :: post) := by
  have hcarve : usedAddrs (b.carve minSize req) = [b.addr] := by
    unfold Block.carve
    split <;> simp [usedAddrs_cons]
  rw [usedAddrs_append, usedAddrs_append, usedAddrs_append, usedAddrs_cons, if_pos hb, hcarve]
  simp only [List.mem_append, List.mem_singleton]
  tauto

theorem Inv.malloc (hI : Inv A s bs) {want : Nat} (hwant : want ≠ 0) (hfits : Unwrapped A want) :
    ∃ s' bs', step A s (.malloc want) = some s' ∧ Inv A s' bs' := by
  have hw := heapStructSize_bounds A.word
  have hround := hfits.rounded
  rcases hI.represents.malloc hwant (by omega) with
    ⟨hnull, -⟩ | ⟨pre, b, post, h', rfl, hb, hlt, -, hsome, hR⟩
  · refine ⟨s, bs, ?_, hI⟩
    rw [step, hnull]
    rfl
  · have hL := hI.represents.holds.layout
    have hbm : b ∈ pre ++ b :: post := by simp
    have hout : b.addr ∉ usedAddrs (pre ++ b :: post) := by
      intro hmem
      obtain ⟨x, hx, hused, heq⟩ := mem_usedAddrs.mp hmem
      rw [hL.eq_of_addr hx hbm heq, hb] at hused
      cases hused
    refine ⟨⟨h', ⟨b.addr + heapStructSize A.word, want⟩ :: s.live⟩, _, ?_, hR, hI.apart.carve hb _ _,
      ?_, ?_, ?_⟩
    · rw [step, hsome, Option.map_some]
      dsimp only
      rw [if_neg (by omega)]
    · intro a
      rw [usedAddrs_carve pre post hb, hI.live]
      simp only [List.mem_cons, exists_eq_or_imp, Nat.add_right_cancel_iff]
      exact or_congr_left eq_comm
    · apply List.nodup_cons.mpr
      refine ⟨fun hmem => ?_, hI.nodup⟩
      obtain ⟨g, hg, heq⟩ := List.mem_map.mp hmem
      exact hout ((hI.live b.addr).mpr ⟨g, hg, heq⟩)
    · intro g hg
      rcases List.mem_cons.mp hg with rfl | hg
      · unfold Block.carve
        split
        · exact ⟨⟨b.addr, roundedRequest A want, false⟩, by simp, rfl, rfl, hround⟩
        · exact ⟨⟨b.addr, b.size, false⟩, by simp, rfl, rfl, by dsimp only; omega⟩
      · obtain ⟨x, hx, hused, hptr, hsize⟩ := hI.asked g hg
        refine ⟨x, ?_, hused, hptr, hsize⟩
        simp only [List.mem_append, List.mem_cons] at hx ⊢
        rcases hx with hx | rfl | hx
        · exact Or.inl (Or.inl hx)
        · rw [hb] at hused
          cases hused
        · exact Or.inr hx

theorem Inv.free (hI : Inv A s bs) {g : Grant} (hg : g ∈ s.live) :
    ∃ s' bs', step A s (.free g.ptr) = some s' ∧ Inv A s' bs' := by
  obtain ⟨b, hb, hused, hptr, -⟩ := hI.asked g hg
  obtain ⟨pre, post, rfl⟩ := List.append_of_mem hb
  have hL := hI.represents.holds.layout
  obtain ⟨h', hfree, hR⟩ := hI.represents.free hused
  refine ⟨⟨h', s.live.filter (·.ptr ≠ g.ptr)⟩, _, ?_, hR, hI.apart.release, ?_, ?_, ?_⟩
  · rw [step, hptr, hfree]
    rfl
  · intro a
    have hother : a ∈ usedAddrs pre ++ usedAddrs post ↔
        a ∈ usedAddrs (pre ++ b :: post) ∧ a ≠ b.addr := by
      rw [usedAddrs_append, usedAddrs_cons, if_neg (by simp [hused])]
      have hne : a ∈ usedAddrs pre ++ usedAddrs post → a ≠ b.addr := by
        intro hmem
        rw [← usedAddrs_append] at hmem
        obtain ⟨x, hx, -, rfl⟩ := mem_usedAddrs.mp hmem
        exact hL.ne_addr hx
      simp only [List.mem_append, List.mem_cons] at hne ⊢
      tauto
    rw [usedAddrs_release, hother, hI.live]
    simp only [List.mem_filter, hptr, decide_eq_true_eq]
    constructor
    · rintro ⟨⟨x, hx, hxptr⟩, hne⟩
      exact ⟨x, ⟨hx, by omega⟩, hxptr⟩
    · rintro ⟨x, ⟨hx, hne⟩, hxptr⟩
      exact ⟨⟨x, hx, hxptr⟩, by omega⟩
  · exact List.Nodup.sublist (List.filter_sublist.map _) hI.nodup
  · intro x hx
    obtain ⟨hx, hne⟩ := List.mem_filter.mp hx
    rw [decide_eq_true_eq] at hne
    obtain ⟨c, hc, hcused, hcptr, hsize⟩ := hI.asked x hx
    refine ⟨c, ?_, hcused, hcptr, hsize⟩
    have hrest : c ∈ (release pre b post).filter (!·.free) := by
      rw [used_release, ← List.filter_append, List.mem_filter]
      simp only [List.mem_append, List.mem_cons] at hc ⊢
      refine ⟨?_, by simp [hcused]⟩
      rcases hc with hc | rfl | hc
      · exact Or.inl hc
      · rw [hcptr, hptr] at hne
        exact absurd rfl hne
      · exact Or.inr hc
    exact (List.mem_filter.mp hrest).1

/-- Stores in live payloads touch no header of a block. -/
theorem Inv.store (hI : Inv A s bs) {h : Mem} (hstores : InPayloads A s h) :
    Inv A ⟨h, s.live⟩ bs := by
  have hw := heapStructSize_bounds A.word
  have hR := hI.represents
  have hL := hR.holds.layout
  have hheader : ∀ b ∈ bs, h.next b.addr = s.mem.next b.addr ∧ h.prev b.addr = s.mem.prev b.addr ∧
      h.used b.addr = s.mem.used b.addr ∧
        h.tree.node (A.iterNode b.addr) = s.mem.tree.node (A.iterNode b.addr) := by
    intro b hb
    apply hstores.header
    intro g hg
    obtain ⟨c, hc, hused, hptr, hsize⟩ := hI.asked g hg
    have hroom := hL.room b hb
    rcases hL.tiles.eq_or_apart hb hc with rfl | hbefore | hafter
    · left
      omega
    · left
      omega
    · right
      omega
  have hring : Ring h.next h.prev A.cacheNode (bs.map (·.addr)) := by
    apply hR.holds.ring.congr
    · intro x hx
      rcases List.mem_cons.mp hx with rfl | hx
      · exact hstores.cacheNext
      · obtain ⟨b, hb, rfl⟩ := List.mem_map.mp hx
        exact (hheader b hb).1
    · intro x hx
      rcases List.mem_cons.mp hx with rfl | hx
      · exact hstores.cachePrev
      · obtain ⟨b, hb, rfl⟩ := List.mem_map.mp hx
        exact (hheader b hb).2.1
  have htree : ∃ T, h.tree.Keeping T ((freeAddrs bs).map A.iterNode) := by
    obtain ⟨T, hT⟩ := hR.holds.tree
    refine ⟨T, hT.congr hstores.root ?_⟩
    intro x hx
    obtain ⟨a, ha, rfl⟩ := List.mem_map.mp hx
    obtain ⟨b, hb, -, rfl⟩ := mem_freeAddrs.mp ha
    exact (hheader b hb).2.2.2
  refine ⟨⟨⟨hL, hring, ?_, htree⟩, ?_, ?_⟩, hI.apart, hI.live, hI.nodup, hI.asked⟩
  · intro b hb
    rw [← hR.holds.sizes b hb]
    exact congrArg (fun n => n.value.toNat) (hheader b hb).2.2.2
  · intro b hb
    rw [← hR.used b hb]
    exact (hheader b hb).2.2.1
  · exact hstores.allSize.trans hR.all_size

theorem Inv.step (hI : Inv A s bs) {call : Call} (hcall : Allowed A s call) :
    ∃ s', step A s call = some s' ∧ ∃ bs', Inv A s' bs' := by
  cases call with
  | malloc want =>
    by_cases hwant : want = 0
    · refine ⟨s, ?_, bs, hI⟩
      rw [MemAlloc.step, memMalloc, if_pos hwant]
      rfl
    · obtain ⟨s', bs', hstep, hI'⟩ := hI.malloc hwant hcall
      exact ⟨s', hstep, bs', hI'⟩
  | free ptr =>
    rcases hcall with rfl | ⟨g, hg, rfl⟩
    · refine ⟨s, ?_, bs, hI⟩
      have hall : s.live.filter (·.ptr ≠ 0) = s.live := by
        rw [List.filter_eq_self]
        intro g hg
        obtain ⟨b, -, -, hptr, -⟩ := hI.asked g hg
        have hw := heapStructSize_bounds A.word
        rw [decide_eq_true_eq]
        omega
      rw [MemAlloc.step, memFree, if_pos rfl, Option.map_some, hall]
    · obtain ⟨s', bs', hstep, hI'⟩ := hI.free hg
      exact ⟨s', hstep, bs', hI'⟩
  | store h => exact ⟨_, rfl, bs, hI.store hcall⟩

theorem fresh_initial (A : Arena) : Fresh A Sys.initial := ⟨rfl, rfl, rfl⟩

/-- The first request sets the heap up, whatever it is given. -/
theorem Fresh.malloc (hF : Fresh A s) {want : Nat} (hwant : want ≠ 0) (hfits : Unwrapped A want) :
    ∃ s', step A s (.malloc want) = some s' ∧ ∃ bs, Inv A s' bs := by
  obtain ⟨h₁, hinit, hR⟩ := memInit_represents (A := A) hF.allSize
  have hready : readyMem A s.mem = some h₁ := by
    rw [readyMem, if_pos hF.prev, hinit]
  have hsame : memMalloc A want s.mem = memMalloc A want h₁ := by
    rw [memMalloc, memMalloc, hready, hR.holds.readyMem, if_neg hwant, if_neg hwant]
  have hI : Inv A ⟨h₁, s.live⟩ [A.firstBlock] := by
    rw [hF.live]
    refine ⟨hR, List.isChain_singleton _, ?_, List.nodup_nil, fun g hg => by cases hg⟩
    intro a
    simp [usedAddrs_cons, Arena.firstBlock]
  obtain ⟨s', bs', hstep, hI'⟩ := hI.malloc hwant hfits
  refine ⟨s', ?_, bs', hI'⟩
  rw [← hstep, step, step, hsame]

theorem Fresh.step (hF : Fresh A s) {call : Call} (hcall : Allowed A s call)
    (hzero : ∀ want, call = .malloc want → want = 0) :
    ∃ s', step A s call = some s' ∧ Fresh A s' := by
  cases call with
  | malloc want =>
    refine ⟨s, ?_, hF⟩
    rw [MemAlloc.step, memMalloc, if_pos (hzero want rfl)]
    rfl
  | free ptr =>
    rcases hcall with rfl | ⟨g, hg, -⟩
    · refine ⟨⟨s.mem, s.live.filter (·.ptr ≠ 0)⟩, ?_, hF.prev, hF.allSize, ?_⟩
      · rw [MemAlloc.step, memFree, if_pos rfl]
        rfl
      · rw [hF.live]
        rfl
    · rw [hF.live] at hg
      cases hg
  | store h =>
    exact ⟨_, rfl, hcall.cachePrev.trans hF.prev, hcall.allSize.trans hF.allSize, hF.live⟩

theorem Fresh.run (hF : Fresh A s) {calls : List Call}
    (hcalls : Runs.Along (MemAlloc.step A) (Allowed A) s calls) :
    ∃ s', Runs.run (MemAlloc.step A) s calls = some s' ∧
      ((∀ want, .malloc want ∈ calls → want = 0) ∧ Fresh A s' ∨ ∃ bs, Inv A s' bs) := by
  induction calls generalizing s with
  | nil =>
    refine ⟨s, rfl, Or.inl ⟨?_, hF⟩⟩
    intro want hmem
    cases hmem
  | cons call calls ih =>
    by_cases hzero : ∀ want, call = .malloc want → want = 0
    · obtain ⟨m, hm, hF'⟩ := hF.step hcalls.1 hzero
      obtain ⟨s', hrun, hend⟩ := ih hF' (hcalls.2 m hm)
      refine ⟨s', Runs.run_cons.mpr ⟨m, hm, hrun⟩, hend.imp_left ?_⟩
      rintro ⟨hrest, hfresh⟩
      refine ⟨fun want hmem => ?_, hfresh⟩
      rcases List.mem_cons.mp hmem with heq | hmem
      · exact hzero want heq.symm
      · exact hrest want hmem
    · push Not at hzero
      obtain ⟨want, rfl, hwant⟩ := hzero
      obtain ⟨m, hm, hI⟩ := hF.malloc hwant hcalls.1
      have hstep : ∀ s call, (∃ bs, Inv A s bs) → Allowed A s call →
          ∃ s', MemAlloc.step A s call = some s' ∧ ∃ bs, Inv A s' bs := by
        rintro s call ⟨bs, hI⟩ hcall
        exact hI.step hcall
      obtain ⟨s', hrun, hI'⟩ := Runs.run_total hstep hI (hcalls.2 m hm)
      exact ⟨s', Runs.run_cons.mpr ⟨m, hm, hrun⟩, Or.inr hI'⟩

theorem Inv.header (hI : Inv A s bs) {g : Grant} (hg : g ∈ s.live) :
    ∃ b ∈ bs, b.free = false ∧ g.ptr = b.addr + heapStructSize A.word ∧
      g.want + heapStructSize A.word ≤ b.size ∧
        s.payload A g = b.size - heapStructSize A.word := by
  obtain ⟨b, hb, hused, hptr, hsize⟩ := hI.asked g hg
  refine ⟨b, hb, hused, hptr, hsize, ?_⟩
  rw [Sys.payload, hptr, Nat.add_sub_cancel, hI.represents.holds.sizes b hb]

theorem Represents.filter_free {h : Mem} (hR : Represents A h bs) :
    (bs.map (·.addr)).filter (!h.used ·) = freeAddrs bs := by
  rw [List.filter_map, freeAddrs]
  congr 1
  apply List.filter_congr
  intro b hb
  simp [hR.used b hb]

theorem Inv.disjoint (hI : Inv A s bs) : s.live.Pairwise fun g g' =>
    g.ptr + s.payload A g ≤ g'.ptr ∨ g'.ptr + s.payload A g' ≤ g.ptr := by
  have hw := heapStructSize_bounds A.word
  have hL := hI.represents.holds.layout
  apply List.Pairwise.imp_of_mem ?_ (List.pairwise_map.mp hI.nodup)
  intro g g' hg hg' hne
  obtain ⟨b, hb, -, hptr, hsize, hpayload⟩ := hI.header hg
  obtain ⟨c, hc, -, hptr', hsize', hpayload'⟩ := hI.header hg'
  rcases hL.tiles.eq_or_apart hb hc with rfl | hbefore | hafter
  · exact absurd (hptr.trans hptr'.symm) hne
  · left
    omega
  · right
    omega

theorem Inv.consistent (hI : Inv A s bs) : Consistent A s (bs.map (·.addr)) := by
  have hw := heapStructSize_bounds A.word
  have hR := hI.represents
  have hL := hR.holds.layout
  have hfilter := hR.filter_free
  obtain ⟨T, hT⟩ := hR.holds.tree
  refine ⟨hR.holds.ring, ?_, ⟨T, hT.shelters.sound, hT.sorted, ?_⟩, ?_, ?_, ?_, ?_, ?_, hI.disjoint⟩
  · exact (tiles_map (fun _ _ => rfl) hR.holds.sizes).mpr hL.tiles
  · rw [hfilter]
    exact hT.perm
  · apply (List.isChain_map _).mpr
    apply List.IsChain.imp_of_mem_imp ?_ hI.apart
    intro x y hx hy hxy
    rw [hR.used x hx, hR.used y hy]
    cases hfree : y.free with
    | true => simpa [hfree] using hxy
    | false => simp
  · rw [hfilter, hR.all_size, freeSize, freeAddrs, List.map_map]
    congr 1
    apply List.map_congr_left
    intro b hb
    exact (hR.holds.sizes b (List.mem_filter.mp hb).1).symm
  · intro a
    rw [← hI.live, mem_usedAddrs, List.mem_map]
    constructor
    · rintro ⟨⟨b, hb, rfl⟩, hused⟩
      rw [hR.used b hb] at hused
      exact ⟨b, hb, by simpa using hused, rfl⟩
    · rintro ⟨b, hb, hused, rfl⟩
      refine ⟨⟨b, hb, rfl⟩, ?_⟩
      rw [hR.used b hb, hused]
      rfl
  · intro g hg
    obtain ⟨b, hb, -, hptr, -⟩ := hI.header hg
    have haligned := hL.aligned b hb
    omega
  · intro g hg
    obtain ⟨b, -, -, -, hsize, hpayload⟩ := hI.header hg
    omega

/-- Ring and tree stay in step. Every sequence of requests that do not wrap and releases of live
pointers goes through, with no NULL dereferenced, also when the live payloads are written in between.
From the first request for a byte or more on, the ring visits blocks that tile the arena from
`start` to the end of `all_heap`; the tree is a valid search tree of exactly the blocks that are not
used, by their size; no two neighbours are free; `all_size` is the sum of the free sizes; and the used
blocks are those of the live payloads, which are aligned, disjoint, and as long as asked. -/
theorem memHeap_consistent (A : Arena) {calls : List Call}
    (hcalls : Runs.Along (step A) (Allowed A) Sys.initial calls) :
    ∃ s, Runs.run (step A) Sys.initial calls = some s ∧
      ((∀ want, .malloc want ∈ calls → want = 0) ∧ s.live = [] ∨ ∃ l, Consistent A s l) := by
  obtain ⟨s, hrun, hend⟩ := (fresh_initial A).run hcalls
  refine ⟨s, hrun, ?_⟩
  rcases hend with ⟨hzero, hF⟩ | ⟨bs, hI⟩
  · exact Or.inl ⟨hzero, hF.live⟩
  · exact Or.inr ⟨_, hI.consistent⟩

/-- An aligned `all_heap` on a 64-bit host. -/
def Arena.low : Arena where
  word := .w64
  allHeap := 0x100000
  cacheNode := 0x1000
  allHeap_pos := CcRpc.Arena.low.allHeap_pos
  allHeap_fits := by decide
  cacheNode_pos := by decide
  cacheNode_apart := by decide

/-- A block handed out and given back. -/
theorem memHeap_consistent_two : ∃ s,
    Runs.run (step Arena.low) Sys.initial [.malloc 100, .free 0x100048] = some s ∧
      ∃ l, Consistent Arena.low s l := by
  have hptr : (step Arena.low Sys.initial (.malloc 100)).map (·.live.map Grant.ptr) =
      some [0x100048] := by decide +kernel
  have hcalls : Runs.Along (step Arena.low) (Allowed Arena.low) Sys.initial
      [.malloc 100, .free 0x100048] := by
    refine ⟨?_, fun m hm => ⟨Or.inr ?_, fun _ _ => trivial⟩⟩
    · change Unwrapped Arena.low 100
      unfold Unwrapped
      decide
    · rw [hm, Option.map_some, Option.some.injEq] at hptr
      apply List.mem_map.mp
      rw [hptr]
      exact List.mem_cons_self
  obtain ⟨s, hrun, hend⟩ := memHeap_consistent Arena.low hcalls
  refine ⟨s, hrun, hend.resolve_left ?_⟩
  rintro ⟨hzero, -⟩
  have habsurd := hzero 100 List.mem_cons_self
  cases habsurd

end CcRpc.MemAlloc
