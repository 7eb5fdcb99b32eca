import CcRpc.PoolRegion

/-!
# The blocks of a pool region

Results of different calls lie in different blocks of the pools, and a block has room for its header
and the request, as long as the request and the header are less than 2^32 bytes together: only the
low 32 bits of their sum choose the class.
-/

namespace CcRpc

/-- `ptr` points behind the header of a block of `len` bytes at `blk`. -/
def InBlock (w : WordSize) (r : MgPools) (ptr blk len : Nat) : Prop :=
  ∃ n ∈ r.nodes, ∃ i < n.pool.count, blk = n.pool.block w i ∧ len = n.pool.blockSize ∧
    ptr = blk + sizeofBlockHeader w

/-- Each result has the size asked for behind the header of one block of a pool, and two results have
blocks that do not overlap, headers included. -/
structure RegionSound (w : WordSize) (s : RegionSys) : Prop where
  room : ∃ r, s.region = .pool r ∧ ∀ x ∈ s.results, ∃ blk len, InBlock w r x.1 blk len ∧
    sizeofBlockHeader w + x.2 ≤ len
  disjoint : ∀ r, s.region = .pool r → s.results.Pairwise fun x y => ∀ blk len blk' len',
    InBlock w r x.1 blk len → InBlock w r y.1 blk' len' → Apart blk len blk' len'

/-- The call leaves a sound region. -/
def RegionSafe (w : WordSize) (s : RegionSys) (op : RegionOp) : Prop :=
  ∃ s', regionStep w s op = some s' ∧ RegionSound w s'

/-- A request is a `size_t`, and for a new pool `heap_malloc` grants memory that no pool has. -/
def RegionLegal (A : Arena) (s : RegionSys) : RegionOp → Prop
  | .alloc size answers => size < 2 ^ A.word.bits ∧
      ∀ r n, s.region = .pool r → MakesPool A.word r size answers n →
        A.Payload (n.pool.extent A.word) n.pool.addr ∧
          ∀ m ∈ r.nodes, Apart n.pool.addr (n.pool.extent A.word) m.pool.addr
            (m.pool.extent A.word)
  | .reset => True

/-- The header does not take the request to 2^32, or the request is refused. -/
def RegionFits (w : WordSize) (s : RegionSys) : RegionOp → Prop
  | .alloc size answers => size + sizeofBlockHeader w < 2 ^ 32 ∨
      ∀ r, s.region = .pool r → Refused w r size answers
  | .reset => True

/-- A node whose pool is in the heap and has blocks of 8 to 2^12 bytes. -/
structure MgPoolNode.Ok (A : Arena) (n : MgPoolNode) : Prop where
  payload : A.Payload (n.pool.extent A.word) n.pool.addr
  count_le : n.pool.count ≤ 32
  mask : ∀ i, n.pool.bitmask.getLsbD i = true → i < n.pool.count
  ge : 8 ≤ n.pool.blockSize
  le : n.pool.blockSize ≤ 2 ^ mgMaxClassBits

/-- Every result is a block whose bit is clear. -/
structure RegionInv (A : Arena) (r : MgPools) (results : List (Nat × Nat)) : Prop where
  max : r.maxBits ≤ mgMaxClassBits
  size : ∀ b, (r.classes b).blockSize = 2 ^ b
  ok : ∀ n ∈ r.nodes, n.Ok A
  class_le : ∀ b ≤ r.maxBits, ∀ n ∈ (r.classes b).pools, 2 ^ b ≤ n.pool.blockSize
  apart : r.nodes.Pairwise fun n m =>
    Apart n.pool.addr (n.pool.extent A.word) m.pool.addr (m.pool.extent A.word)
  taken : ∀ x ∈ results, ∃ n ∈ r.nodes, ∃ i < n.pool.count, n.pool.bitmask.getLsbD i = false ∧
    x.1 = n.pool.block A.word i + sizeofBlockHeader A.word ∧
    sizeofBlockHeader A.word + x.2 ≤ n.pool.blockSize
  nodup : (results.map Prod.fst).Nodup

variable {A : Arena} {r : MgPools} {results : List (Nat × Nat)} {n m : MgPoolNode} {i j : Nat}

theorem MembitPool.block_inside {pool : MembitPool} (w : WordSize) (hi : i < pool.count) :
    pool.addr ≤ pool.block w i ∧
      pool.block w i + pool.blockSize ≤ pool.addr + pool.extent w := by
  have hle : pool.blockSize * i + pool.blockSize ≤ _ := block_le hi
  rw [MembitPool.block, MembitPool.base, MembitPool.extent]
  omega

theorem RegionInv.block_cases (hI : RegionInv A r results) (hn : n ∈ r.nodes) (hm : m ∈ r.nodes)
    (hi : i < n.pool.count) (hj : j < m.pool.count) :
    n = m ∧ i = j ∨
      Apart (n.pool.block A.word i) n.pool.blockSize (m.pool.block A.word j) m.pool.blockSize := by
  have hini := MembitPool.block_inside A.word hi
  have hinj := MembitPool.block_inside A.word hj
  by_cases hnm : n = m
  · subst hnm
    by_cases hij : i = j
    · exact Or.inl ⟨rfl, hij⟩
    · exact Or.inr (apart_blocks hij)
  · apply Or.inr
    have hsymm : Std.Symm fun n m : MgPoolNode =>
        Apart n.pool.addr (n.pool.extent A.word) m.pool.addr (m.pool.extent A.word) :=
      ⟨fun _ _ h => h.symm⟩
    have hapart := hI.apart.forall hn hm hnm
    exact hapart.within hini.1 hini.2 hinj.1 hinj.2

theorem RegionInv.block_inj (hI : RegionInv A r results) (hn : n ∈ r.nodes) (hm : m ∈ r.nodes)
    (hi : i < n.pool.count) (hj : j < m.pool.count)
    (heq : n.pool.block A.word i = m.pool.block A.word j) : n = m ∧ i = j := by
  rcases hI.block_cases hn hm hi hj with hsame | hapart
  · exact hsame
  · have hposn := (hI.ok n hn).ge
    have hposm := (hI.ok m hm).ge
    rw [Apart, heq] at hapart
    omega

theorem RegionInv.sound (hI : RegionInv A r results) :
    RegionSound A.word ⟨.pool r, results⟩ where
  room := by
    refine ⟨r, rfl, fun x hx => ?_⟩
    obtain ⟨n, hn, i, hi, -, hat, hroom⟩ := hI.taken x hx
    exact ⟨_, _, ⟨n, hn, i, hi, rfl, rfl, hat⟩, hroom⟩
  disjoint := by
    intro r' hr'
    cases hr'
    apply (List.pairwise_map.mp hI.nodup).imp
    rintro x y hne blk len blk' len' ⟨n, hn, i, hi, rfl, rfl, hx⟩ ⟨m, hm, j, hj, rfl, rfl, hy⟩
    rcases hI.block_cases hn hm hi hj with ⟨rfl, rfl⟩ | hapart
    · exact absurd (hx.trans hy.symm) hne
    · exact hapart

theorem getLsbD_take_self {pool : MembitPool} (hfree : pool.bitmask ≠ 0) :
    pool.take.bitmask.getLsbD (lowbitIndex pool.bitmask) = false := by
  have htaken := getLsbD_take (v := pool.bitmask) (lowbitIndex_spec hfree).1
    (lowbitIndex pool.bitmask)
  cases hbit : pool.take.bitmask.getLsbD (lowbitIndex pool.bitmask) with
  | false => rfl
  | true => exact absurd rfl (htaken.mp hbit).2

theorem getLsbD_of_take {pool : MembitPool} (hfree : pool.bitmask ≠ 0)
    (hbit : pool.take.bitmask.getLsbD i = true) : pool.bitmask.getLsbD i = true :=
  ((getLsbD_take (lowbitIndex_spec hfree).1 i).mp hbit).1

theorem MgPoolNode.Ok.take (hok : n.Ok A) (hfree : n.pool.bitmask ≠ 0) : n.take.Ok A :=
  ⟨hok.payload, hok.count_le, fun i hbit => hok.mask i (getLsbD_of_take hfree hbit), hok.ge, hok.le⟩

/-- The lowest free block of the node `n` is handed out. -/
theorem RegionInv.take {b size : Nat} {pre post : List MgPoolNode}
    (hI : RegionInv A (r.setPools b (pre ++ n :: post)) results) (hb : b ≤ r.maxBits)
    (hfree : n.pool.bitmask ≠ 0) (hroom : sizeofBlockHeader A.word + size ≤ n.pool.blockSize) :
    RegionInv A (r.taken A.word b pre n post)
      ((n.pool.block A.word (lowbitIndex n.pool.bitmask) + sizeofBlockHeader A.word, size) ::
        results) := by
  obtain ⟨P, Q, hnodes⟩ := nodes_split r hb
  obtain ⟨-, hbit⟩ := lowbitIndex_spec hfree
  have hbefore := hnodes (pre ++ n :: post)
  have hafter : (r.taken A.word b pre n post).nodes = P ++ (pre ++ n.take :: post) ++ Q :=
    hnodes (pre ++ n.take :: post)
  have hn : n ∈ (r.setPools b (pre ++ n :: post)).nodes := by simp [hbefore]
  have hcount := (hI.ok n hn).mask _ hbit
  have hkeys : (r.taken A.word b pre n post).nodes.map
        (fun m => (m.pool.addr, m.pool.extent A.word)) =
      (r.setPools b (pre ++ n :: post)).nodes.map
        fun m => (m.pool.addr, m.pool.extent A.word) := by
    rw [hafter, hbefore]
    simp [MgPoolNode.take, MembitPool.take, MembitPool.extent]
  refine ⟨hI.max, fun c => ?_, fun m hm => ?_, fun c hc m hm => ?_, ?_, fun x hx => ?_, ?_⟩
  · exact blockSize_setPools.trans (blockSize_setPools.symm.trans (hI.size c))
  · rw [hafter] at hm
    by_cases hmn : m = n.take
    · rw [hmn]
      exact (hI.ok n hn).take hfree
    · apply hI.ok
      rw [hbefore]
      simp only [List.mem_append, List.mem_cons, hmn, false_or] at hm ⊢
      tauto
  · have hclass := hI.class_le c hc
    by_cases hcb : c = b
    · subst hcb
      rw [pools_setPools_self] at hclass
      have hm' : m ∈ pre ++ n.take :: post := by
        have hpools : ((r.taken A.word c pre n post).classes c).pools = pre ++ n.take :: post :=
          pools_setPools_self
        rwa [hpools] at hm
      rcases List.mem_append.mp hm' with hpre | hpost
      · exact hclass m (by simp [hpre])
      · rcases List.mem_cons.mp hpost with rfl | hpost
        · exact hclass n (by simp)
        · exact hclass m (by simp [hpost])
    · have hm' : m ∈ (r.classes c).pools := by
        have hsame : (r.taken A.word b pre n post).classes c = r.classes c :=
          classes_setPools_of_ne hcb
        rwa [hsame] at hm
      rw [classes_setPools_of_ne hcb] at hclass
      exact hclass m hm'
  · have hpair : ((r.setPools b (pre ++ n :: post)).nodes.map
        fun m => (m.pool.addr, m.pool.extent A.word)).Pairwise
        fun x y => Apart x.1 x.2 y.1 y.2 := List.pairwise_map.mpr hI.apart
    rw [← hkeys] at hpair
    exact List.pairwise_map.mp hpair
  · rcases List.mem_cons.mp hx with rfl | hx
    · refine ⟨n.take, by simp [hafter], _, hcount, getLsbD_take_self hfree, rfl, hroom⟩
    · obtain ⟨m, hm, i, hi, hclear, hat, hsize⟩ := hI.taken x hx
      by_cases hmn : m = n
      · subst hmn
        refine ⟨m.take, by simp [hafter], i, hi, ?_, hat, hsize⟩
        cases hset : m.take.pool.bitmask.getLsbD i with
        | false => rfl
        | true =>
          rw [getLsbD_of_take hfree hset] at hclear
          cases hclear
      · refine ⟨m, ?_, i, hi, hclear, hat, hsize⟩
        rw [hbefore] at hm
        rw [hafter]
        simp only [List.mem_append, List.mem_cons, hmn, false_or] at hm ⊢
        tauto
  · refine List.nodup_cons.mpr ⟨fun hmem => ?_, hI.nodup⟩
    obtain ⟨x, hx, hsame⟩ := List.mem_map.mp hmem
    obtain ⟨m, hm, i, hi, hclear, hat, -⟩ := hI.taken x hx
    have hblock : m.pool.block A.word i = n.pool.block A.word (lowbitIndex n.pool.bitmask) := by
      have hsum := hat.symm.trans hsame
      exact Nat.add_right_cancel hsum
    obtain ⟨rfl, rfl⟩ := hI.block_inj hm hn hi hcount hblock
    rw [hbit] at hclear
    cases hclear

theorem RegionInv.push {b : Nat} (hI : RegionInv A r results) (hb : b ≤ r.maxBits) (hok : n.Ok A)
    (hclass : 2 ^ b ≤ n.pool.blockSize)
    (hapart : ∀ m ∈ r.nodes, Apart n.pool.addr (n.pool.extent A.word) m.pool.addr
      (m.pool.extent A.word)) :
    RegionInv A (r.setPools b (n :: (r.classes b).pools)) results := by
  obtain ⟨P, Q, hnodes⟩ := nodes_split r hb
  have hbefore := hnodes (r.classes b).pools
  rw [setPools_self] at hbefore
  have hperm : (r.setPools b (n :: (r.classes b).pools)).nodes.Perm (n :: r.nodes) := by
    rw [hnodes, hbefore, List.append_assoc, List.append_assoc, List.cons_append]
    exact List.perm_middle
  refine ⟨hI.max, fun c => blockSize_setPools.trans (hI.size c), fun m hm => ?_, fun c hc m hm => ?_,
    ?_, fun x hx => ?_, hI.nodup⟩
  · rcases List.mem_cons.mp (hperm.mem_iff.mp hm) with rfl | hm
    · exact hok
    · exact hI.ok m hm
  · by_cases hcb : c = b
    · subst hcb
      rw [pools_setPools_self] at hm
      rcases List.mem_cons.mp hm with rfl | hm
      · exact hclass
      · exact hI.class_le c hc m hm
    · rw [classes_setPools_of_ne hcb] at hm
      exact hI.class_le c hc m hm
  · refine (hperm.pairwise_iff fun h => h.symm).mpr (List.pairwise_cons.mpr ⟨hapart, hI.apart⟩)
  · obtain ⟨m, hm, i, hi, hclear, hat, hsize⟩ := hI.taken x hx
    exact ⟨m, hperm.mem_iff.mpr (List.mem_cons_of_mem n hm), i, hi, hclear, hat, hsize⟩

theorem roundedBlock_two_pow {b : Nat} (hb : b ≤ mgMaxClassBits) :
    8 ≤ roundedBlock (UInt16.ofNat (2 ^ b)) ∧ 2 ^ b ≤ roundedBlock (UInt16.ofNat (2 ^ b)) ∧
      roundedBlock (UInt16.ofNat (2 ^ b)) ≤ 2 ^ mgMaxClassBits := by
  rw [mgMaxClassBits] at hb ⊢
  interval_cases b <;> decide

theorem sizeofBlockHeader_le (w : WordSize) : sizeofBlockHeader w ≤ 8 := by
  cases w <;> decide

theorem le_clampedSize (size : Nat) : size ≤ clampedSize size := by
  unfold clampedSize
  split <;> omega

theorem RegionInv.push_new {size : Nat} {answers : HeapAnswers} (hI : RegionInv A r results)
    (hlegal : RegionLegal A ⟨.pool r, results⟩ (.alloc size answers))
    (hnew : MakesPool A.word r size answers n) :
    RegionInv A (r.setPools (classBits A.word (clampedSize size))
      (n :: (r.classes (classBits A.word (clampedSize size))).pools)) results := by
  obtain ⟨hpayload, hapart⟩ := hlegal.2 r n rfl hnew
  obtain ⟨-, hmax, -, hmade⟩ := hnew
  obtain ⟨p, a, -, -, rfl⟩ := mgPoolNodeNew_some hmade
  have hsize := hI.size (classBits A.word (clampedSize size))
  obtain ⟨hge, hclass, hle⟩ := roundedBlock_two_pow (hmax.trans hI.max)
  rw [← hsize] at hge hclass hle
  refine hI.push hmax ⟨hpayload, clampedCount_le _, fun i hbit => ?_, hge, hle⟩ ?_ hapart
  · dsimp only at hbit
    rw [newPool_mask] at hbit
    exact of_decide_eq_true hbit
  · rw [← hsize]
    exact hclass

variable {size : Nat} {answers : HeapAnswers}

theorem regionStep_alloc (w : WordSize) (r : MgPools) (results : List (Nat × Nat)) (size : Nat)
    (answers : HeapAnswers) :
    regionStep w ⟨.pool r, results⟩ (.alloc size answers) =
      some ⟨(mgRegionAlloc w (.pool r) size answers).2.1,
        ((mgRegionAlloc w (.pool r) size answers).1.map fun p => (p, size)).toList ++ results⟩ := rfl

/-- What a granted request leaves, as far as its size is at most what the class has room for. -/
theorem RegionInv.alloc (hI : RegionInv A r results)
    (hlegal : RegionLegal A ⟨.pool r, results⟩ (.alloc size answers)) {room : Nat}
    (hroom : ∀ b ≤ r.maxBits, classBits A.word (clampedSize size) ≤ b → ∀ bs, 8 ≤ bs → 2 ^ b ≤ bs →
      ¬ Refused A.word r size answers → sizeofBlockHeader A.word + room ≤ bs) :
    (∃ rest, (size = 0 ∨ Refused A.word r size answers) ∧
        mgRegionAlloc A.word (.pool r) size answers = (none, .pool r, rest)) ∨
      ∃ ptr r' rest, mgRegionAlloc A.word (.pool r) size answers = (some ptr, .pool r', rest) ∧
        RegionInv A r' ((ptr, room) :: results) := by
  have hcases := mgRegionAlloc_pool A.word r size answers
  generalize mgRegionAlloc A.word (.pool r) size answers = res at hcases
  cases hcases with
  | null rest h => exact Or.inl ⟨rest, h, rfl⟩
  | reused b pre n post hsize hbits hmax hbelow hpools hfree =>
    refine Or.inr ⟨_, _, _, rfl, ?_⟩
    have hI' := hI
    rw [← setPools_self r b, hpools] at hI'
    have hn : n ∈ (r.classes b).pools := by simp [hpools]
    have hnode : n ∈ r.nodes :=
      List.mem_flatMap.mpr ⟨b, List.mem_range.mpr (by omega), hn⟩
    refine hI'.take hmax hfree (hroom b hmax hbits _ (hI.ok n hnode).ge (hI.class_le b hmax n hn) ?_)
    rintro (hlt | ⟨hall, -⟩)
    · omega
    · exact hfree (hall b hbits hmax n hn)
  | created n rest hnew =>
    refine Or.inr ⟨_, _, _, rfl, ?_⟩
    have hI' := hI.push_new hlegal hnew
    have hmax := hnew.2.1
    have hn : n ∈ ((r.setPools (classBits A.word (clampedSize size))
        (n :: (r.classes (classBits A.word (clampedSize size))).pools)).classes
          (classBits A.word (clampedSize size))).pools := by
      rw [pools_setPools_self]
      exact List.mem_cons_self
    have hnode : n ∈ (r.setPools (classBits A.word (clampedSize size))
        (n :: (r.classes (classBits A.word (clampedSize size))).pools)).nodes :=
      List.mem_flatMap.mpr ⟨_, List.mem_range.mpr (Nat.lt_succ_of_le hmax), hn⟩
    refine hI'.take hmax hnew.free (hroom _ hmax (Nat.le_refl _) _ (hI'.ok n hnode).ge
      (hI'.class_le _ hmax n hn) ?_)
    rintro (hlt | ⟨-, hnone⟩)
    · omega
    · rw [hnew.2.2.2] at hnone
      cases hnone

theorem MgPoolNode.Ok.reset (hok : n.Ok A) : n.reset.Ok A := by
  refine ⟨hok.payload, hok.count_le, fun i hbit => ?_, hok.ge, hok.le⟩
  have hmask := getLsbD_fullMask hok.count_le i
  rw [show n.reset.pool.bitmask = fullMask n.pool.count from rfl, hmask] at hbit
  exact of_decide_eq_true hbit

theorem RegionInv.reset (hI : RegionInv A r results) : RegionInv A r.reset [] := by
  have hpools : ∀ b ≤ r.maxBits, (r.reset.classes b).pools =
      (r.classes b).pools.map MgPoolNode.reset := by
    intro b hb
    simp [MgPools.reset, hb]
  have hnodes : r.reset.nodes = r.nodes.map MgPoolNode.reset := by
    rw [MgPools.nodes, MgPools.nodes, List.map_flatMap]
    apply List.flatMap_congr
    intro b hb
    exact hpools b (Nat.le_of_lt_succ (List.mem_range.mp hb))
  refine ⟨hI.max, fun b => ?_, fun n hn => ?_, fun b hb n hn => ?_, ?_, by simp, by simp⟩
  · rw [← hI.size b, MgPools.reset]
    dsimp only
    split <;> rfl
  · rw [hnodes] at hn
    obtain ⟨m, hm, rfl⟩ := List.mem_map.mp hn
    exact (hI.ok m hm).reset
  · rw [hpools b hb] at hn
    obtain ⟨m, hm, rfl⟩ := List.mem_map.mp hn
    exact hI.class_le b hb m hm
  · rw [hnodes]
    exact List.pairwise_map.mpr hI.apart

theorem RegionInv.step (hI : RegionInv A r results) {op : RegionOp}
    (hlegal : RegionLegal A ⟨.pool r, results⟩ op) (hfits : RegionFits A.word ⟨.pool r, results⟩ op) :
    ∃ r' results', regionStep A.word ⟨.pool r, results⟩ op = some ⟨.pool r', results'⟩ ∧
      RegionInv A r' results' := by
  cases op with
  | reset => exact ⟨_, _, rfl, hI.reset⟩
  | alloc size answers =>
    have hroom : ∀ b ≤ r.maxBits, classBits A.word (clampedSize size) ≤ b → ∀ bs, 8 ≤ bs →
        2 ^ b ≤ bs → ¬ Refused A.word r size answers → sizeofBlockHeader A.word + size ≤ bs := by
      intro b _ hb bs _ hbs hgranted
      rcases hfits with hlt | hrefused
      · have hheader := sizeofBlockHeader_le A.word
        have hclamped : clampedSize size + sizeofBlockHeader A.word < 2 ^ 32 := by
          unfold clampedSize mgMinClassBytes
          split <;> omega
        have hneed := le_two_pow_classBits A.word hclamped
        have hpow : 2 ^ classBits A.word (clampedSize size) ≤ 2 ^ b :=
          Nat.pow_le_pow_right (by decide) hb
        have hle := le_clampedSize size
        omega
      · exact absurd (hrefused r rfl) hgranted
    rw [regionStep_alloc]
    rcases hI.alloc hlegal hroom with ⟨rest, -, hnull⟩ | ⟨ptr, r', rest, hsome, hI'⟩
    · rw [hnull]
      exact ⟨r, results, rfl, hI⟩
    · rw [hsome]
      exact ⟨r', _, rfl, hI'⟩

/-- A request that does not fit is granted in a block of at most 2^12 bytes. -/
theorem RegionInv.fits_of_safe (hI : RegionInv A r results) {op : RegionOp}
    (hlegal : RegionLegal A ⟨.pool r, results⟩ op)
    (hsafe : RegionSafe A.word ⟨.pool r, results⟩ op) :
    RegionFits A.word ⟨.pool r, results⟩ op := by
  cases op with
  | reset => exact trivial
  | alloc size answers =>
    by_contra hfits
    rw [RegionFits, not_or, Nat.not_lt] at hfits
    have hheader := sizeofBlockHeader_le A.word
    have hgranted : ¬ Refused A.word r size answers := by
      intro hrefused
      apply hfits.2
      intro r' hr'
      cases hr'
      exact hrefused
    obtain ⟨s', hstep, hsound⟩ := hsafe
    rw [regionStep_alloc] at hstep
    -- a request of no bytes in its place would keep the invariant
    have hroom : ∀ b ≤ r.maxBits, classBits A.word (clampedSize size) ≤ b → ∀ bs, 8 ≤ bs →
        2 ^ b ≤ bs → ¬ Refused A.word r size answers → sizeofBlockHeader A.word + 0 ≤ bs := by
      intro b _ _ bs hbs _ _
      omega
    rcases hI.alloc hlegal hroom with ⟨rest, hnull, -⟩ | ⟨ptr, r', rest, hsome, hI'⟩
    · rcases hnull with rfl | hrefused
      · omega
      · exact hgranted hrefused
    · rw [hsome] at hstep
      cases hstep
      obtain ⟨r'', hr'', hall⟩ := hsound.room
      cases hr''
      obtain ⟨blk, len, ⟨n, hn, i, -, -, rfl, -⟩, hfit⟩ := hall _ List.mem_cons_self
      have hle := (hI'.ok n hn).le
      rw [mgMaxClassBits] at hle
      dsimp only at hfit
      omega

theorem regionInv_empty (A : Arena) (maxClassBits : UInt8) :
    RegionInv A (mgEmptyPools maxClassBits) [] := by
  have hpools : ∀ b, ((mgEmptyPools maxClassBits).classes b).pools = [] := fun _ => rfl
  have hnodes : (mgEmptyPools maxClassBits).nodes = [] := by
    simp [MgPools.nodes, hpools]
  refine ⟨?_, fun b => ?_, ?_, ?_, ?_, by simp, by simp⟩
  · unfold mgEmptyPools
    dsimp only
    split <;> omega
  · exact (Nat.shiftLeft_eq 1 b).trans (Nat.one_mul _)
  · simp [hnodes]
  · simp [hpools]
  · simp [hnodes]

/-- A new pool region is sound, and every call of a run is safe, exactly when each request either
stays below 2^32 with its header or is refused. -/
theorem region_safe_iff (A : Arena) (maxClassBits : UInt8) {a : Nat} {rest : HeapAnswers}
    {region : MgRegion}
    (hregion : mgRegionCreatePool maxClassBits (some a :: rest) = (some region, rest))
    {ops : List RegionOp}
    (hlegal : Runs.Along (regionStep A.word) (RegionLegal A) ⟨region, []⟩ ops) :
    RegionSound A.word ⟨region, []⟩ ∧
      (Runs.Along (regionStep A.word) (RegionSafe A.word) ⟨region, []⟩ ops ↔
        Runs.Along (regionStep A.word) (RegionFits A.word) ⟨region, []⟩ ops) := by
  cases hregion
  have hI := regionInv_empty A maxClassBits
  refine ⟨hI.sound, Runs.along_iff
    (I := fun s => ∃ r results, s = ⟨.pool r, results⟩ ∧ RegionInv A r results) ?_ ?_
    ⟨_, _, rfl, hI⟩ hlegal⟩
  · rintro s op ⟨r, results, rfl, hI⟩ hlegal hsafe
    exact hI.fits_of_safe hlegal hsafe
  · rintro s op ⟨r, results, rfl, hI⟩ hlegal hfits
    obtain ⟨r', results', hstep, hI'⟩ := hI.step hlegal hfits
    exact ⟨⟨_, hstep, hI'.sound⟩, _, hstep, r', results', rfl, hI'⟩

/-- The first request makes a pool of two blocks, the second one finds a free block in it. -/
theorem region_safe_iff_two :
    RegionSound .w64 ⟨.pool (mgEmptyPools 12), []⟩ ∧
      (Runs.Along (regionStep .w64) (RegionSafe .w64) ⟨.pool (mgEmptyPools 12), []⟩
          [.alloc 100 [some 0x100100, some 0x100300], .alloc 100 [], .reset] ↔
        Runs.Along (regionStep .w64) (RegionFits .w64) ⟨.pool (mgEmptyPools 12), []⟩
          [.alloc 100 [some 0x100100, some 0x100300], .alloc 100 [], .reset]) := by
  have hlater : ∀ s, RegionLegal Arena.low s (.alloc 100 []) := by
    refine fun s => ⟨show 100 < 2 ^ 64 by decide, fun r n _ hnew => ?_⟩
    obtain ⟨p, a, rest, hanswers, -⟩ := mgPoolNodeNew_some hnew.2.2.2
    cases hanswers
  have hregion : mgRegionCreatePool 12 [some 0x100010] = (some (.pool (mgEmptyPools 12)), []) := rfl
  refine region_safe_iff Arena.low 12 hregion
    ⟨⟨show 100 < 2 ^ 64 by decide, fun r n hr hnew => ?_⟩,
      fun s _ => ⟨hlater s, fun _ _ => ⟨trivial, fun _ _ => trivial⟩⟩⟩
  cases hr
  obtain ⟨p, a, rest, hanswers, rfl⟩ := mgPoolNodeNew_some hnew.2.2.2
  cases hanswers
  refine ⟨⟨by decide, by decide, by decide⟩, fun m hm => ?_⟩
  have hnodes : (mgEmptyPools 12).nodes = [] := rfl
  rw [hnodes] at hm
  cases hm

/-- A request of 2^32 bytes is served with a block of 8 bytes. -/
theorem region_narrows :
    RegionLegal Arena.low ⟨.pool (mgEmptyPools 12), []⟩
        (.alloc (2 ^ 32) [some 0x100100, some 0x100200]) ∧
      ¬ RegionSafe .w64 ⟨.pool (mgEmptyPools 12), []⟩
        (.alloc (2 ^ 32) [some 0x100100, some 0x100200]) := by
  have hlegal : RegionLegal Arena.low ⟨.pool (mgEmptyPools 12), []⟩
      (.alloc (2 ^ 32) [some 0x100100, some 0x100200]) := by
    refine ⟨show 2 ^ 32 < 2 ^ 64 by decide, fun r n hr hnew => ?_⟩
    cases hr
    obtain ⟨p, a, rest, hanswers, rfl⟩ := mgPoolNodeNew_some hnew.2.2.2
    cases hanswers
    refine ⟨⟨by decide, by decide, by decide⟩, fun m hm => ?_⟩
    have hnodes : (mgEmptyPools 12).nodes = [] := rfl
    rw [hnodes] at hm
    cases hm
  refine ⟨hlegal, fun hsafe => ?_⟩
  rcases (regionInv_empty Arena.low 12).fits_of_safe hlegal hsafe with hlt | hrefused
  · exact absurd hlt (by decide)
  · rcases hrefused _ rfl with hmax | ⟨-, hnone⟩
    · exact absurd hmax (by decide)
    · cases hnone

end CcRpc
