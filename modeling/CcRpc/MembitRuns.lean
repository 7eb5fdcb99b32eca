import CcRpc.Membit

/-!
# Runs of a bitmap pool

A run allocates, frees live pointers and resets. Next to the pool it keeps the live blocks, each with
the index it was allocated under, so that what the mask says can be compared with what is live.
-/

namespace CcRpc

structure MembitSys where
  pool : MembitPool
  /-- Index and address of each live block. -/
  live : List (Nat × Nat)

inductive MembitOp where
  | alloc
  | free (addr : Nat)
  | reset

/-- One call. -/
def membitStep (w : WordSize) (s : MembitSys) : MembitOp → Option MembitSys
  | .alloc =>
    match membitAlloc w s.pool with
    | (none, pool) => some ⟨pool, s.live⟩
    | (some p, pool) => some ⟨pool, (lowbitIndex s.pool.bitmask, p) :: s.live⟩
  | .free addr =>
    (membitFree w s.pool addr).map fun pool => ⟨pool, s.live.eraseP fun x => x.2 = addr⟩
  | .reset => some ⟨membitReset s.pool, []⟩

/-- Only live pointers are freed. -/
def MembitLive (s : MembitSys) : MembitOp → Prop
  | .free addr => ∃ x ∈ s.live, x.2 = addr
  | _ => True

/-- The blocks handed out are disjoint, large enough and inside the pool's memory, the mask holds the
indexes of the others, and they are not more than there are. -/
structure MembitSound (w : WordSize) (size : UInt16) (count : UInt8) (p : Nat) (s : MembitSys) :
    Prop where
  disjoint : s.live.Pairwise fun x y => Apart x.2 s.pool.blockSize y.2 s.pool.blockSize
  sized : ∀ x ∈ s.live, size.toNat ≤ s.pool.blockSize
  inside : ∀ x ∈ s.live, p ≤ x.2 ∧ x.2 + s.pool.blockSize ≤ p + membitTotal w size count
  mask : ∀ i, s.pool.bitmask.getLsbD i = true ↔
    i < min count.toNat 32 ∧ i ∉ s.live.map Prod.fst
  few : s.live.length ≤ min count.toNat 32

/-- The call returns and leaves a sound pool. -/
def MembitSafe (w : WordSize) (size : UInt16) (count : UInt8) (p : Nat) (s : MembitSys)
    (op : MembitOp) : Prop :=
  ∃ s', membitStep w s op = some s' ∧ MembitSound w size count p s'

/-- An allocation does not meet a size that rounds to 2^16, unless there are no blocks at all, and a
free does not meet blocks of size 0. -/
def MembitFits (size : UInt16) (count : UInt8) : MembitOp → Prop
  | .alloc => size.toNat ≤ 65528 ∨ count = 0
  | .free _ => 0 < size.toNat
  | .reset => True

/-- The pool as `membit_create` made it, but for its mask. -/
structure MembitInv (w : WordSize) (size : UInt16) (count : UInt8) (p : Nat) (s : MembitSys) :
    Prop where
  pool_addr : s.pool.addr = p
  pool_size : s.pool.blockSize = roundedBlock size
  pool_count : s.pool.count = clampedCount count
  block : ∀ x ∈ s.live, x.1 < clampedCount count ∧
    x.2 = p + w.membitHeadSize + roundedBlock size * x.1
  nodup : (s.live.map Prod.fst).Nodup
  mask : ∀ i, s.pool.bitmask.getLsbD i = true ↔ i < clampedCount count ∧ i ∉ s.live.map Prod.fst
  wide : 65528 < size.toNat → s.live = []

variable {w : WordSize} {size : UInt16} {count : UInt8} {p : Nat} {s s' : MembitSys}

theorem MembitInv.sound (hI : MembitInv w size count p s) : MembitSound w size count p s where
  disjoint := by
    have hpair := List.pairwise_map.mp hI.nodup
    apply hpair.imp_of_mem
    intro x y hx hy hne
    rw [hI.pool_size, (hI.block x hx).2, (hI.block y hy).2]
    exact apart_blocks hne
  sized := by
    intro x hx
    rw [hI.pool_size]
    apply le_roundedBlock
    by_contra hwide
    rw [hI.wide (by omega)] at hx
    cases hx
  inside := by
    intro x hx
    obtain ⟨hlt, haddr⟩ := hI.block x hx
    have hle : roundedBlock size * x.1 + roundedBlock size ≤ _ := block_le hlt
    rw [hI.pool_size, haddr, membitTotal]
    omega
  mask := by
    intro i
    rw [hI.mask i, clampedCount_eq]
  few := by
    rw [← clampedCount_eq]
    have hsub : s.live.map Prod.fst ⊆ List.range (clampedCount count) := by
      intro i hi
      obtain ⟨x, hx, rfl⟩ := List.mem_map.mp hi
      exact List.mem_range.mpr (hI.block x hx).1
    have hlen := (hI.nodup.subperm hsub).length_le
    rwa [List.length_map, List.length_range] at hlen

theorem membitInv_create {pool : MembitPool} (hpool : membitCreate size count (some p) = some pool) :
    MembitInv w size count p ⟨pool, []⟩ := by
  cases hpool
  refine ⟨rfl, rfl, rfl, by simp, by simp, fun i => ?_, fun _ => rfl⟩
  rw [getLsbD_fullMask (clampedCount_le count)]
  simp

theorem membitStep_alloc_none (w : WordSize) (hnone : s.pool.bitmask = 0) :
    membitStep w s .alloc = some s := by
  rw [membitStep, membitAlloc, if_pos hnone]

theorem membitStep_alloc_some (w : WordSize) (hsome : s.pool.bitmask ≠ 0) :
    membitStep w s .alloc =
      some ⟨{ s.pool with
          bitmask := s.pool.bitmask &&& ~~~(1#32 <<< lowbitIndex s.pool.bitmask) },
        (lowbitIndex s.pool.bitmask,
          s.pool.base w + s.pool.blockSize * lowbitIndex s.pool.bitmask) :: s.live⟩ := by
  rw [membitStep, membitAlloc, if_neg hsome]

theorem MembitInv.alloc_some (hI : MembitInv w size count p s) (hsome : s.pool.bitmask ≠ 0)
    (hsize : size.toNat ≤ 65528) :
    ∃ s', membitStep w s .alloc = some s' ∧ MembitInv w size count p s' := by
  obtain ⟨hlt, hbit⟩ := lowbitIndex_spec hsome
  obtain ⟨hcount, hfree⟩ := (hI.mask _).mp hbit
  refine ⟨_, membitStep_alloc_some w hsome, hI.pool_addr, hI.pool_size, hI.pool_count, ?_, ?_,
    fun i => ?_, fun hwide => absurd hsize (by omega)⟩
  · intro x hx
    rcases List.mem_cons.mp hx with rfl | hx
    · refine ⟨hcount, ?_⟩
      rw [MembitPool.base, hI.pool_addr, hI.pool_size]
    · exact hI.block x hx
  · exact List.nodup_cons.mpr ⟨hfree, hI.nodup⟩
  · rw [getLsbD_take hlt, hI.mask i, List.map_cons, List.mem_cons]
    tauto

/-- The index of a live block is found again from its address. -/
theorem MembitInv.index_eq {A : Arena} (hp : A.Payload (membitTotal A.word size count) p)
    (hI : MembitInv A.word size count p s) (hpos : 0 < roundedBlock size) {x : Nat × Nat}
    (hx : x ∈ s.live) :
    A.word.sub x.2 (s.pool.base A.word) / s.pool.blockSize % 2 ^ 8 = x.1 ∧ x.1 < 32 := by
  obtain ⟨hlt, haddr⟩ := hI.block x hx
  have hle : roundedBlock size * x.1 + roundedBlock size ≤ _ := block_le hlt
  have hfits := hp.fits
  rw [membitTotal] at hfits
  have hcount := clampedCount_le count
  have hoff : A.word.sub x.2 (s.pool.base A.word) = roundedBlock size * x.1 := by
    rw [MembitPool.base, hI.pool_addr, haddr, WordSize.sub_of_le (by omega) (by omega),
      Nat.add_sub_cancel_left]
  rw [hoff, hI.pool_size, Nat.mul_div_cancel_left _ hpos, Nat.mod_eq_of_lt (by omega)]
  exact ⟨rfl, by omega⟩

theorem MembitInv.free {A : Arena} (hp : A.Payload (membitTotal A.word size count) p)
    (hI : MembitInv A.word size count p s) (hpos : 0 < size.toNat) {addr : Nat}
    (hlive : ∃ x ∈ s.live, x.2 = addr) :
    ∃ s', membitStep A.word s (.free addr) = some s' ∧ MembitInv A.word size count p s' := by
  obtain ⟨x, l₁, l₂, -, haddr, hlist, herase⟩ :=
    List.exists_of_eraseP hlive.choose_spec.1 (p := fun x => decide (x.2 = addr))
      (decide_eq_true hlive.choose_spec.2)
  have hx : x ∈ s.live := by simp [hlist]
  have haddr : x.2 = addr := of_decide_eq_true haddr
  have hwide : size.toNat ≤ 65528 := by
    by_contra hwide
    rw [hI.wide (by omega)] at hx
    cases hx
  have hblock := roundedBlock_pos hpos hwide
  obtain ⟨hidx, hlt⟩ := hI.index_eq hp hblock hx
  have hne : addr ≠ 0 := by
    have hbase := hp.pos
    have hat := (hI.block x hx).2
    omega
  have hnodup := hI.nodup
  rw [hlist, List.map_append, List.map_cons] at hnodup
  have hgone := List.nodup_cons.mp (List.nodup_middle.mp hnodup)
  rw [← List.map_append] at hgone
  rw [haddr] at hidx
  refine ⟨⟨{ s.pool with bitmask := s.pool.bitmask ||| (1#32 <<< x.1) }, l₁ ++ l₂⟩, ?_,
    hI.pool_addr, hI.pool_size, hI.pool_count, ?_, hgone.2, fun i => ?_, fun hbig => absurd hbig (by omega)⟩
  · simp only [membitStep, membitFree, if_neg hne, if_neg (hI.pool_size.trans_ne hblock.ne'),
      hidx, if_pos hlt, Option.map_some, herase]
  · intro y hy
    apply hI.block
    rw [hlist]
    simp only [List.mem_append, List.mem_cons] at hy ⊢
    tauto
  · rw [getLsbD_give hlt, hI.mask i, hlist]
    simp only [List.map_append, List.map_cons, List.mem_append, List.mem_cons]
    have hcount := (hI.block x hx).1
    by_cases hi : i = x.1
    · subst hi
      rw [List.map_append, List.mem_append] at hgone
      exact iff_of_true (Or.inr rfl) ⟨hcount, hgone.1⟩
    · simp [hi]

theorem MembitInv.reset (hI : MembitInv w size count p s) :
    ∃ s', membitStep w s .reset = some s' ∧ MembitInv w size count p s' := by
  refine ⟨_, rfl, hI.pool_addr, hI.pool_size, hI.pool_count, by simp, by simp, fun i => ?_, fun _ => rfl⟩
  rw [membitReset, hI.pool_count, getLsbD_fullMask (clampedCount_le count)]
  simp

theorem MembitInv.step {A : Arena} (hp : A.Payload (membitTotal A.word size count) p)
    (hI : MembitInv A.word size count p s) {op : MembitOp} (hlive : MembitLive s op)
    (hfits : MembitFits size count op) :
    ∃ s', membitStep A.word s op = some s' ∧ MembitInv A.word size count p s' := by
  cases op with
  | alloc =>
    by_cases hnone : s.pool.bitmask = 0
    · exact ⟨s, membitStep_alloc_none _ hnone, hI⟩
    · rcases hfits with hsize | rfl
      · exact hI.alloc_some hnone hsize
      · -- a pool of no blocks has no bit set
        refine absurd (BitVec.eq_of_getLsbD_eq fun i _ => ?_) hnone
        have hmask := hI.mask i
        cases hbit : s.pool.bitmask.getLsbD i with
        | false => simp
        | true => exact absurd (hmask.mp hbit).1 (by simp [clampedCount])
  | free addr => exact hI.free hp hfits hlive
  | reset => exact hI.reset

/-- A call that does not fit fails or leaves a block that is too small. -/
theorem MembitInv.fits_of_safe {A : Arena} (hp : A.Payload (membitTotal A.word size count) p)
    (hI : MembitInv A.word size count p s) {op : MembitOp} (hlive : MembitLive s op)
    (hsafe : MembitSafe A.word size count p s op) : MembitFits size count op := by
  obtain ⟨s', hstep, hsound⟩ := hsafe
  cases op with
  | alloc =>
    by_contra hfits
    rw [MembitFits, not_or] at hfits
    have hwide : 65528 < size.toNat := by omega
    have hzero : s.pool.bitmask.getLsbD 0 = true := by
      have hpos : count.toNat ≠ 0 := fun h0 => hfits.2 (UInt8.toNat_inj.mp h0)
      apply (hI.mask 0).mpr
      rw [hI.wide hwide, clampedCount_eq]
      exact ⟨by omega, by simp⟩
    have hsome : s.pool.bitmask ≠ 0 := by
      intro h0
      rw [h0] at hzero
      simp at hzero
    rw [membitStep_alloc_some _ hsome] at hstep
    cases hstep
    have hsized := hsound.sized _ List.mem_cons_self
    dsimp only at hsized
    rw [hI.pool_size, roundedBlock_of_lt hwide] at hsized
    omega
  | free addr =>
    by_contra hpos
    rw [MembitFits] at hpos
    have hblock : s.pool.blockSize = 0 := by
      have hzero : size.toNat = 0 := by omega
      rw [hI.pool_size, roundedBlock_eq, hzero]
      rfl
    obtain ⟨x, hx, rfl⟩ := hlive
    have hne : x.2 ≠ 0 := by
      have hbase := hp.pos
      have hat := (hI.block x hx).2
      omega
    rw [membitStep, membitFree, if_neg hne] at hstep
    dsimp only at hstep
    rw [if_pos hblock, Option.map_none] at hstep
    cases hstep
  | reset => exact trivial

theorem MembitInv.along_iff {A : Arena} (hp : A.Payload (membitTotal A.word size count) p)
    (hI : MembitInv A.word size count p s) {ops : List MembitOp}
    (hlive : Runs.Along (membitStep A.word) MembitLive s ops) :
    Runs.Along (membitStep A.word) (MembitSafe A.word size count p) s ops ↔
      ∀ op ∈ ops, MembitFits size count op := by
  have hstep : ∀ s op, MembitInv A.word size count p s → MembitLive s op →
      MembitFits size count op →
      ∃ s', membitStep A.word s op = some s' ∧ MembitInv A.word size count p s' :=
    fun _ _ hI hlive hfits => hI.step hp hlive hfits
  have hsafe := Runs.along_iff (I := MembitInv A.word size count p)
    (C := fun _ => MembitFits size count)
    (fun _ _ hI hlive hsafe => MembitInv.fits_of_safe hp hI hlive hsafe)
    (fun s op hI hlive hfits => by
      obtain ⟨s', hs', hI'⟩ := hstep s op hI hlive hfits
      exact ⟨⟨s', hs', hI'.sound⟩, s', hs', hI'⟩) hI hlive
  exact hsafe.trans (Runs.along_forall_iff hstep hI hlive)

/-- A new pool is sound, and every call of a run is safe, exactly when nothing is allocated from a
pool whose size rounds to 2^16 and nothing is freed in a pool of size 0. -/
theorem membit_safe_iff (A : Arena) {size : UInt16} {count : UInt8} {p : Nat}
    (hp : A.Payload (membitTotal A.word size count) p) {ops : List MembitOp} {pool : MembitPool}
    (hpool : membitCreate size count (some p) = some pool)
    (hlive : Runs.Along (membitStep A.word) MembitLive ⟨pool, []⟩ ops) :
    MembitSound A.word size count p ⟨pool, []⟩ ∧
      (Runs.Along (membitStep A.word) (MembitSafe A.word size count p) ⟨pool, []⟩ ops ↔
        ∀ op ∈ ops, MembitFits size count op) :=
  ⟨(membitInv_create hpool).sound, (membitInv_create hpool).along_iff hp hlive⟩

/-- Two blocks of 60 bytes, one of them taken and given back. -/
theorem membit_safe_iff_two :
    ∃ pool, membitCreate 60 2 (some 0x100010) = some pool ∧
      MembitSound .w64 60 2 0x100010 ⟨pool, []⟩ ∧
      (Runs.Along (membitStep .w64) (MembitSafe .w64 60 2 0x100010) ⟨pool, []⟩
          [.alloc, .free 0x100028] ↔
        ∀ op ∈ [MembitOp.alloc, .free 0x100028], MembitFits 60 2 op) := by
  refine ⟨_, rfl, membit_safe_iff Arena.low ⟨by decide, by decide, by decide⟩ rfl ⟨trivial, ?_⟩⟩
  intro s hstep
  cases hstep
  refine ⟨⟨(0, 0x100028), List.mem_cons_self, rfl⟩, fun _ _ => trivial⟩

/-- Blocks of 65535 bytes are rounded to 0. -/
theorem membit_rounds_to_zero :
    Arena.low.Payload (membitTotal .w64 65535 1) 0x100010 ∧
      ∃ pool s, membitCreate 65535 1 (some 0x100010) = some pool ∧
        membitStep .w64 ⟨pool, []⟩ .alloc = some s ∧ ¬ MembitSound .w64 65535 1 0x100010 s := by
  refine ⟨⟨by decide, by decide, by decide⟩, _, _, rfl, rfl, fun hsound => ?_⟩
  have hsized := hsound.sized _ List.mem_cons_self
  exact absurd hsized (by decide)

end CcRpc
