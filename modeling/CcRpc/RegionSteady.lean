import CcRpc.PoolRegion
import CcRpc.Lib.Spill

/-!
# The steady state of a pool region

What the requests of one epoch were granted from is there after a reset. The same requests, or some of
them, are then granted in any order from the pools the region has.
-/

namespace CcRpc

open Spill

variable {w : WordSize} {r : MgPools} {n : MgPoolNode} {b c j : Nat}

/-- How many blocks of a pool are free. -/
def MembitPool.freeBlocks (pool : MembitPool) : Nat :=
  {i ∈ Finset.range 32 | pool.bitmask.getLsbD i = true}.card

theorem freeBlocks_take {pool : MembitPool} (hfree : pool.bitmask ≠ 0) :
    pool.take.freeBlocks + 1 = pool.freeBlocks := by
  have hlow := lowbitIndex_spec hfree
  have hmem : lowbitIndex pool.bitmask ∈ {i ∈ Finset.range 32 | pool.bitmask.getLsbD i = true} := by
    simpa using hlow
  have herase : {i ∈ Finset.range 32 | pool.take.bitmask.getLsbD i = true} =
      {i ∈ Finset.range 32 | pool.bitmask.getLsbD i = true}.erase (lowbitIndex pool.bitmask) := by
    ext i
    simp only [MembitPool.take, Finset.mem_filter, Finset.mem_erase, getLsbD_take hlow.1]
    tauto
  rw [MembitPool.freeBlocks, herase, Finset.card_erase_add_one hmem, MembitPool.freeBlocks]

theorem freeBlocks_eq_zero {pool : MembitPool} : pool.freeBlocks = 0 ↔ pool.bitmask = 0 := by
  constructor
  · intro hzero
    by_contra hne
    have htake := freeBlocks_take hne
    omega
  · intro hzero
    simp [MembitPool.freeBlocks, hzero]

theorem freeBlocks_full {pool : MembitPool} (hcount : pool.count ≤ 32)
    (hmask : pool.bitmask = fullMask pool.count) : pool.freeBlocks = pool.count := by
  have hrange : {i ∈ Finset.range 32 | pool.bitmask.getLsbD i = true} = Finset.range pool.count := by
    ext i
    simp only [hmask, getLsbD_fullMask hcount, Finset.mem_filter, Finset.mem_range,
      decide_eq_true_eq]
    omega
  rw [MembitPool.freeBlocks, hrange, Finset.card_range]

/-- How many blocks the pools of class `b` have. -/
def MgPools.blocks (r : MgPools) (b : Nat) : Nat :=
  ((r.classes b).pools.map fun n => n.pool.count).sum

/-- How many of them are free. -/
def MgPools.free (r : MgPools) (b : Nat) : Nat :=
  ((r.classes b).pools.map fun n => n.pool.freeBlocks).sum

/-- No pool has more blocks than its mask has bits. -/
def MgPools.Masked (r : MgPools) : Prop := ∀ b, ∀ n ∈ (r.classes b).pools, n.pool.count ≤ 32

theorem allTaken_iff : AllTaken (r.classes b).pools ↔ r.free b = 0 := by
  rw [MgPools.free, List.sum_eq_zero_iff]
  simp [AllTaken, freeBlocks_eq_zero]

section Taken

variable {pre post : List MgPoolNode}

theorem blocks_taken (hpools : (r.classes b).pools = pre ++ n :: post) :
    (r.taken w b pre n post).blocks c = r.blocks c := by
  by_cases hc : c = b
  · subst hc
    simp [MgPools.blocks, MgPools.taken, MgPools.setHeader, pools_setPools_self, hpools,
      MgPoolNode.take, MembitPool.take]
  · simp [MgPools.blocks, MgPools.taken, MgPools.setHeader, classes_setPools_of_ne hc]

theorem free_taken (hpools : (r.classes b).pools = pre ++ n :: post) (hfree : n.pool.bitmask ≠ 0) :
    (r.taken w b pre n post).free c + (if c = b then 1 else 0) = r.free c := by
  have htake := freeBlocks_take hfree
  by_cases hc : c = b
  · subst hc
    simp only [MgPools.free, MgPools.taken, MgPools.setHeader, pools_setPools_self, hpools,
      MgPoolNode.take, List.map_append, List.map_cons, List.sum_append, List.sum_cons, if_true]
    omega
  · simp [MgPools.free, MgPools.taken, MgPools.setHeader, classes_setPools_of_ne hc, hc]

theorem masked_taken (hr : r.Masked) (hpools : (r.classes b).pools = pre ++ n :: post) :
    (r.taken w b pre n post).Masked := by
  intro c m hm
  by_cases hc : c = b
  · subst hc
    have hall := hr c
    rw [hpools] at hall
    simp only [MgPools.taken, MgPools.setHeader, pools_setPools_self, List.mem_append,
      List.mem_cons] at hm
    rcases hm with hm | rfl | hm
    · exact hall m (by simp [hm])
    · exact hall n (by simp)
    · exact hall m (by simp [hm])
  · rw [MgPools.taken, MgPools.setHeader] at hm
    dsimp only at hm
    rw [classes_setPools_of_ne hc] at hm
    exact hr c m hm

end Taken

/-- The region with one more pool. -/
def MgPools.grow (r : MgPools) (b : Nat) (n : MgPoolNode) : MgPools :=
  r.setPools b (n :: (r.classes b).pools)

theorem pools_grow_self : ((r.grow b n).classes b).pools = [] ++ n :: (r.classes b).pools :=
  pools_setPools_self

theorem taken_grow :
    (r.grow b n).taken w b [] n (r.classes b).pools = r.taken w b [] n (r.classes b).pools := by
  rw [MgPools.taken, MgPools.grow, setPools_setPools, MgPools.taken]

theorem blocks_grow : (r.grow b n).blocks c = r.blocks c + if c = b then n.pool.count else 0 := by
  by_cases hc : c = b
  · subst hc
    simp [MgPools.blocks, MgPools.grow, pools_setPools_self, Nat.add_comm]
  · simp [MgPools.blocks, MgPools.grow, classes_setPools_of_ne hc, hc]

theorem free_grow : (r.grow b n).free c = r.free c + if c = b then n.pool.freeBlocks else 0 := by
  by_cases hc : c = b
  · subst hc
    simp [MgPools.free, MgPools.grow, pools_setPools_self, Nat.add_comm]
  · simp [MgPools.free, MgPools.grow, classes_setPools_of_ne hc, hc]

theorem masked_grow (hr : r.Masked) (hn : n.pool.count ≤ 32) : (r.grow b n).Masked := by
  intro c m hm
  by_cases hc : c = b
  · subst hc
    rw [pools_grow_self, List.nil_append, List.mem_cons] at hm
    rcases hm with rfl | hm
    · exact hn
    · exact hr c m hm
  · rw [MgPools.grow, classes_setPools_of_ne hc] at hm
    exact hr c m hm

theorem MakesPool.full {size : Nat} {answers : HeapAnswers} (h : MakesPool w r size answers n) :
    n.pool.count ≤ 32 ∧ n.pool.freeBlocks = n.pool.count := by
  obtain ⟨p, a, -, -, rfl⟩ := mgPoolNodeNew_some h.2.2.2
  have hcount : (newPool (r.classes (classBits w (clampedSize size))).blockSize p).count ≤ 32 :=
    clampedCount_le _
  exact ⟨hcount, freeBlocks_full hcount rfl⟩

theorem blocks_reset : r.reset.blocks b = r.blocks b := by
  unfold MgPools.blocks MgPools.reset
  dsimp only
  split
  · simp [MgPoolNode.reset, membitReset, Function.comp_def]
  · rfl

theorem masked_reset (hr : r.Masked) : r.reset.Masked := by
  intro b n hn
  unfold MgPools.reset at hn
  dsimp only at hn
  split at hn
  · obtain ⟨m, hm, rfl⟩ := List.mem_map.mp hn
    exact hr b m hm
  · exact hr b n hn

theorem free_reset (hr : r.Masked) (hb : b ≤ r.maxBits) : r.reset.free b = r.blocks b := by
  have hnode : ∀ n ∈ (r.classes b).pools, n.reset.pool.freeBlocks = n.pool.count := fun n hn =>
    freeBlocks_full (show n.reset.pool.count ≤ 32 from hr b n hn) rfl
  rw [MgPools.free, MgPools.reset, MgPools.blocks]
  dsimp only
  rw [if_pos hb, List.map_map]
  exact congrArg List.sum (List.map_congr_left hnode)

theorem masked_empty (maxClassBits : UInt8) : (mgEmptyPools maxClassBits).Masked := by
  intro b n hn
  simp [mgEmptyPools] at hn

/-- The class a request asks for. -/
def requestClass (w : WordSize) (size : Nat) : Nat := classBits w (clampedSize size)

/-- In an epoch the region has, from each class on, the blocks that were granted and the free ones. -/
structure Epoch (w : WordSize) (r : MgPools) (sizes : List Nat) : Prop where
  masked : r.Masked
  ne : ∀ size ∈ sizes, size ≠ 0
  room : ∀ j, asked (sizes.map (requestClass w)) j + blocksFrom r.free r.maxBits j ≤
    blocksFrom r.blocks r.maxBits j

variable {size : Nat} {sizes : List Nat} {answers : HeapAnswers}

/-- A block of class `b` is handed out for a request of that class or a smaller one. -/
theorem Epoch.take {pre post : List MgPoolNode} (hE : Epoch w r sizes) (hsize : size ≠ 0)
    (hbits : requestClass w size ≤ b) (hmax : b ≤ r.maxBits)
    (hpools : (r.classes b).pools = pre ++ n :: post) (hfree : n.pool.bitmask ≠ 0) :
    Epoch w (r.taken w b pre n post) (size :: sizes) where
  masked := masked_taken hE.masked hpools
  ne := List.forall_mem_cons.mpr ⟨hsize, hE.ne⟩
  room := by
    intro j
    have hroom := hE.room j
    have hblocks : blocksFrom (r.taken w b pre n post).blocks r.maxBits j =
        blocksFrom r.blocks r.maxBits j :=
      blocksFrom_congr (fun _ _ => blocks_taken hpools) j
    have htake := blocksFrom_add hmax (fun c => (free_taken (w := w) (c := c) hpools hfree).symm) j
    have hmaxBits : (r.taken w b pre n post).maxBits = r.maxBits := rfl
    rw [hmaxBits, hblocks, List.map_cons, asked_cons]
    split <;> split at htake <;> omega

theorem Epoch.grow (hE : Epoch w r sizes) (hb : b ≤ r.maxBits) (hcount : n.pool.count ≤ 32)
    (hfull : n.pool.freeBlocks = n.pool.count) : Epoch w (r.grow b n) sizes where
  masked := masked_grow hE.masked hcount
  ne := hE.ne
  room := by
    intro j
    have hroom := hE.room j
    have hblocks := blocksFrom_add hb (fun c => blocks_grow (r := r) (n := n) (b := b) (c := c)) j
    have hfree := blocksFrom_add hb (fun c => free_grow (r := r) (n := n) (b := b) (c := c)) j
    have hmaxBits : (r.grow b n).maxBits = r.maxBits := rfl
    rw [hmaxBits, hblocks, hfree, hfull]
    omega

theorem Epoch.reset (hE : Epoch w r sizes) : Epoch w r.reset [] where
  masked := masked_reset hE.masked
  ne := by simp
  room := by
    intro j
    have hfree : blocksFrom r.reset.free r.maxBits j = blocksFrom r.blocks r.maxBits j :=
      blocksFrom_congr (fun b hb => free_reset hE.masked hb) j
    have hblocks : blocksFrom r.reset.blocks r.maxBits j = blocksFrom r.blocks r.maxBits j :=
      blocksFrom_congr (fun b _ => blocks_reset) j
    have hmaxBits : r.reset.maxBits = r.maxBits := rfl
    rw [hmaxBits, hfree, hblocks]
    simp [asked]

theorem epoch_empty (w : WordSize) (maxClassBits : UInt8) : Epoch w (mgEmptyPools maxClassBits) [] where
  masked := masked_empty maxClassBits
  ne := by simp
  room := by simp [asked, blocksFrom, MgPools.free, MgPools.blocks, mgEmptyPools]

/-- `r'` has the limit of `r`, and from each class on no fewer blocks. -/
structure Grown (r r' : MgPools) : Prop where
  max : r'.maxBits = r.maxBits
  blocks : ∀ j, blocksFrom r.blocks r.maxBits j ≤ blocksFrom r'.blocks r'.maxBits j

theorem Grown.refl (r : MgPools) : Grown r r := ⟨rfl, fun _ => Nat.le_refl _⟩

theorem Grown.trans {r₁ r₂ r₃ : MgPools} (h : Grown r₁ r₂) (h' : Grown r₂ r₃) : Grown r₁ r₃ :=
  ⟨h'.max.trans h.max, fun j => (h.blocks j).trans (h'.blocks j)⟩

theorem epoch_step {op : RegionOp} {s' : RegionSys} {results : List (Nat × Nat)}
    (hE : Epoch w r (results.map Prod.snd)) (hs' : regionStep w ⟨.pool r, results⟩ op = some s') :
    ∃ r', s'.region = .pool r' ∧ Epoch w r' (s'.results.map Prod.snd) ∧ Grown r r' := by
  cases op with
  | reset =>
    cases hs'
    refine ⟨r.reset, rfl, hE.reset, rfl, fun j => ?_⟩
    exact (blocksFrom_congr (fun b _ => blocks_reset) j).ge
  | alloc size answers =>
    have halloc := mgRegionAlloc_pool w r size answers
    rw [regionStep] at hs'
    generalize mgRegionAlloc w (.pool r) size answers = out at halloc hs'
    cases halloc with
    | null rest _ =>
      cases hs'
      exact ⟨r, rfl, hE, .refl r⟩
    | reused b pre n post hsize hbits hmax _ hpools hfree =>
      cases hs'
      refine ⟨_, rfl, hE.take hsize hbits hmax hpools hfree, rfl, fun j => ?_⟩
      exact (blocksFrom_congr (fun c _ => blocks_taken hpools) j).ge
    | created n rest hnew =>
      cases hs'
      have hmax : requestClass w size ≤ r.maxBits := hnew.2.1
      have hgrow := hE.grow hmax hnew.full.1 hnew.full.2
      have htake := hgrow.take hnew.1 (Nat.le_refl _) hmax pools_grow_self hnew.free
      rw [requestClass, taken_grow] at htake
      refine ⟨_, rfl, htake, rfl, fun j => ?_⟩
      have hblocks := blocksFrom_add hmax (fun c => blocks_grow (r := r) (n := n)
        (b := requestClass w size) (c := c)) j
      have htaken : blocksFrom (r.taken w (requestClass w size) [] n
          (r.classes (requestClass w size)).pools).blocks r.maxBits j =
          blocksFrom (r.grow (requestClass w size) n).blocks r.maxBits j := by
        rw [← taken_grow]
        exact blocksFrom_congr (fun c _ => blocks_taken pools_grow_self) j
      exact (Nat.le_add_right _ _).trans_eq (hblocks.symm.trans htaken.symm)

theorem epoch_run {ops : List RegionOp} {s s' : RegionSys} (hpool : s.region = .pool r)
    (hE : Epoch w r (s.results.map Prod.snd)) (hrun : Runs.run (regionStep w) s ops = some s') :
    ∃ r', s'.region = .pool r' ∧ Epoch w r' (s'.results.map Prod.snd) ∧ Grown r r' := by
  apply Runs.run_invariant (P := fun t => ∃ r', t.region = .pool r' ∧
    Epoch w r' (t.results.map Prod.snd) ∧ Grown r r') _ ⟨r, hpool, hE, .refl r⟩ hrun
  rintro ⟨region, results⟩ op t ⟨r₁, rfl, hE₁, hgrown⟩ ht
  obtain ⟨r₂, hr₂, hE₂, hgrown₂⟩ := epoch_step hE₁ ht
  exact ⟨r₂, hr₂, hE₂, hgrown.trans hgrown₂⟩

/-- Where the pool nodes of a region are. -/
def MgRegion.nodeAddrs : MgRegion → List Nat
  | .pool r => r.nodes.map MgPoolNode.addr
  | .bump _ => []

/-- Each request is granted, none asks `heap_malloc` for anything, and the pools stay those that are
there. -/
def RegionServes (w : WordSize) (g : MgRegion) : List (Nat × HeapAnswers) → Prop
  | [] => True
  | (size, answers) :: reqs => ∃ p g', mgRegionAlloc w g size answers = (some p, g', answers) ∧
      g'.nodeAddrs = g.nodeAddrs ∧ RegionServes w g' reqs

/-- Since the reset the requests of `ps` were served, and the other blocks are free. -/
structure Steady (cap : Nat → Nat) (top : Nat) (r : MgPools) (ps : List (Nat × Nat)) : Prop where
  max : r.maxBits = top
  greedy : Greedy cap top ps
  left : ∀ b ≤ top, used ps b + r.free b = cap b

variable {cap : Nat → Nat} {top : Nat} {ps : List (Nat × Nat)}

theorem addrs_taken {pre post : List MgPoolNode} (hb : b ≤ r.maxBits)
    (hpools : (r.classes b).pools = pre ++ n :: post) :
    (r.taken w b pre n post).nodes.map MgPoolNode.addr = r.nodes.map MgPoolNode.addr := by
  obtain ⟨P, Q, hnodes⟩ := nodes_split r hb
  have hafter : (r.taken w b pre n post).nodes = P ++ (pre ++ n.take :: post) ++ Q := hnodes _
  have hbefore : r.nodes = P ++ (pre ++ n :: post) ++ Q := by
    have hself := hnodes (r.classes b).pools
    rwa [setPools_self, hpools] at hself
  rw [hafter, hbefore]
  simp [MgPoolNode.take]

/-- A block is free for a request that leaves enough, so no pool is made for it. -/
theorem Steady.alloc (hS : Steady cap top r ps) {size : Nat} (hsize : size ≠ 0)
    (hall : ∀ j, asked (requestClass w size :: ps.map Prod.fst) j ≤ blocksFrom cap top j)
    (answers : HeapAnswers) :
    ∃ p r' b, mgRegionAlloc w (.pool r) size answers = (some p, .pool r', answers) ∧
      r'.nodes.map MgPoolNode.addr = r.nodes.map MgPoolNode.addr ∧
      Steady cap top r' ((requestClass w size, b) :: ps) := by
  obtain ⟨d, hkd, hd, hused⟩ := hS.greedy.exists_free hall
  have hfreed : r.free d ≠ 0 := by
    have hleft := hS.left d hd
    omega
  have hmaxd : d ≤ r.maxBits := hS.max ▸ hd
  have halloc := mgRegionAlloc_pool w r size answers
  generalize mgRegionAlloc w (.pool r) size answers = out at halloc
  cases halloc with
  | null rest h =>
    rcases h with hzero | hbig | ⟨hfull, -⟩
    · exact absurd hzero hsize
    · exact absurd hbig (Nat.not_lt.mpr (hkd.trans hmaxd))
    · exact absurd (allTaken_iff.mp (hfull d hkd hmaxd)) hfreed
  | created n rest hnew => exact absurd (allTaken_iff.mp (hnew.2.2.1 d hkd hmaxd)) hfreed
  | reused b pre n post _ hbits hmax hbelow hpools hfree =>
    refine ⟨_, _, b, rfl, addrs_taken hmax hpools, hS.max, ?_, fun c hc => ?_⟩
    · have hb : b ≤ top := hS.max ▸ hmax
      have htake := free_taken (w := w) (c := b) hpools hfree
      have hleft := hS.left b hb
      rw [if_pos rfl] at htake
      apply hS.greedy.place hbits hb (by omega)
      intro c hle hlt
      have hzero := allTaken_iff.mp (hbelow c hle hlt)
      have hleftc := hS.left c (by omega)
      omega
    · have htake := free_taken (w := w) (c := c) hpools hfree
      have hleft := hS.left c hc
      rw [used_cons]
      dsimp only
      split at htake <;> split <;> omega

/-- Requests that leave enough in every class are all served. -/
theorem Steady.served {reqs : List (Nat × HeapAnswers)} (hS : Steady cap top r ps)
    (hsize : ∀ x ∈ reqs, x.1 ≠ 0)
    (hall : ∀ j, asked (reqs.map fun x => requestClass w x.1) j + asked (ps.map Prod.fst) j ≤
      blocksFrom cap top j) : RegionServes w (.pool r) reqs := by
  induction reqs generalizing r ps with
  | nil => trivial
  | cons x reqs ih =>
    obtain ⟨size, answers⟩ := x
    have hnext : ∀ j, asked (requestClass w size :: ps.map Prod.fst) j ≤ blocksFrom cap top j := by
      intro j
      have hj := hall j
      rw [List.map_cons, asked_cons] at hj
      dsimp only at hj
      rw [asked_cons]
      omega
    obtain ⟨p, r', b, hcall, haddrs, hS'⟩ := hS.alloc (hsize _ List.mem_cons_self) hnext answers
    refine ⟨p, .pool r', hcall, haddrs, ih hS' (fun x hx => hsize x (List.mem_cons_of_mem _ hx)) ?_⟩
    intro j
    have hj := hall j
    rw [List.map_cons, asked_cons] at hj
    rw [List.map_cons, asked_cons]
    dsimp only at hj ⊢
    omega

/-- After a reset, requests that were granted in one earlier epoch are granted again in any order, in
full or in part, from the pools the region has. -/
theorem region_steady (w : WordSize) {maxClassBits : UInt8} {answers rest : HeapAnswers} {g : MgRegion}
    {before after : List RegionOp} {s₁ s₂ : RegionSys} {reqs : List (Nat × HeapAnswers)}
    (hg : mgRegionCreatePool maxClassBits answers = (some g, rest))
    (h₁ : Runs.run (regionStep w) ⟨g, []⟩ before = some s₁)
    (h₂ : Runs.run (regionStep w) s₁ after = some s₂)
    (hreqs : (reqs.map Prod.fst).Subperm (s₁.results.map Prod.snd)) :
    RegionServes w (mgRegionReset s₂.region) reqs := by
  obtain rfl : g = .pool (mgEmptyPools maxClassBits) := by
    rcases answers with _ | ⟨_ | a, answers⟩
    all_goals simp only [mgRegionCreatePool, HeapAnswers.pop, Prod.mk.injEq, reduceCtorEq,
      Option.some.injEq, false_and] at hg
    exact hg.1.symm
  obtain ⟨r₁, hr₁, hE₁, -⟩ := epoch_run rfl (epoch_empty w maxClassBits) h₁
  obtain ⟨r₂, hr₂, hE₂, hgrown⟩ := epoch_run hr₁ hE₁ h₂
  rw [hr₂]
  have hS : Steady r₂.blocks r₂.maxBits r₂.reset [] := by
    refine ⟨rfl, greedy_nil, fun b hb => ?_⟩
    rw [free_reset hE₂.masked hb]
    simp [used]
  apply hS.served
  · intro x hx
    exact hE₁.ne _ (hreqs.subset (List.mem_map_of_mem hx))
  · intro j
    have hsub : asked (reqs.map fun x => requestClass w x.1) j ≤
        asked ((s₁.results.map Prod.snd).map (requestClass w)) j := by
      obtain ⟨l, hperm, hsub⟩ := hreqs
      have hmap := (hperm.map (requestClass w)).symm.subperm.trans (hsub.map _).subperm
      rw [List.map_map] at hmap
      exact asked_subperm hmap j
    have hroom := hE₁.room j
    have hblocks := hgrown.blocks j
    simp only [List.map_nil, asked, List.countP_nil] at hsub hroom hblocks ⊢
    omega

/-- Requests of 200 and of 40 bytes make a pool each. After a reset they are granted in the other
order, whatever `heap_malloc` would answer. -/
theorem region_steady_two : ∃ s₁ s₂,
    Runs.run (regionStep .w64) ⟨.pool (mgEmptyPools 12), []⟩
      [.alloc 200 [some 0x100100, some 0x100300], .alloc 40 [some 0x100400, some 0x100700]] =
        some s₁ ∧
      s₁.results.map Prod.snd = [40, 200] ∧
      Runs.run (regionStep .w64) s₁ [.reset, .alloc 40 []] = some s₂ ∧
      RegionServes .w64 (mgRegionReset s₂.region) [(200, []), (40, [])] := by
  refine ⟨_, _, rfl, rfl, rfl, ?_⟩
  exact @region_steady .w64 12 [some 0x100010] [] _
    [.alloc 200 [some 0x100100, some 0x100300], .alloc 40 [some 0x100400, some 0x100700]]
    [.reset, .alloc 40 []] _ _ [(200, []), (40, [])] rfl rfl rfl
    (List.Perm.swap 40 200 []).subperm

end CcRpc
