import CcRpc.MemPoolShape

/-!
# The calls of a fixed-block pool

What creation, allocation and release do to a pool in shape.
-/

namespace CcRpc

open Chain

variable {w : WordSize} {size : UInt16} {head fl n : Nat} {m m' : PoolMem} {i j k : Nat}

theorem PoolRoom.freeNode_notMem (hR : PoolRoom w size head fl n m) {is : List Nat} (hi : i ∉ is) :
    freeNode w (poolNode w head size i) ∉ fl :: unusedNodes w size head m.used is := by
  intro hmem
  rcases List.mem_cons.mp hmem with heq | hmem
  · have hlt := hR.fl_lt i
    omega
  · obtain ⟨j, hj, -, heq⟩ := mem_unusedNodes.mp hmem
    rw [freeNode_inj, poolNode_inj] at heq
    exact hi (heq ▸ hj)

/-- One round of `pool_apart`: node `k + 1` goes behind node `k` on the ring and in the chain. -/
theorem PoolCarved.round (hR : PoolRoom w size head fl n m) (hC : PoolCarved w size head fl (k + 1) m)
    (hfree : m.used (poolNode w head size k) = 0) (hk : k + 1 < n) :
    ∃ links, listAddNext (freeNode w (poolNode w head size k))
        (freeNode w (poolNode w head size (k + 1))) m.links = some links ∧
      PoolRoom w size head fl n
        { m with
          links := links
          used := Function.update m.used (poolNode w head size (k + 1)) 0
          next := Function.update m.next (poolNode w head size k) (poolNode w head size (k + 1)) } ∧
      PoolCarved w size head fl (k + 1 + 1)
        { m with
          links := links
          used := Function.update m.used (poolNode w head size (k + 1)) 0
          next := Function.update m.next (poolNode w head size k) (poolNode w head size (k + 1)) } := by
  have hring : m.links.Holds fl (unusedNodes w size head m.used (List.range (k + 1)) ++ []) := by
    rw [List.append_nil]
    exact hC.ring
  have hlast : (unusedNodes w size head m.used (List.range (k + 1))).getLastD fl =
      freeNode w (poolNode w head size k) := by
    rw [List.range_succ, unusedNodes_append, unusedNodes_cons hfree]
    simp [unusedNodes]
  have hother : k + 1 ∉ List.range (k + 1) := by simp
  have hnew := hR.freeNode_notMem hother
  obtain ⟨links, hadd, hvalid, hholds⟩ := listAddNext_holds hring (hR.valid_node hk)
    (by rwa [List.append_nil])
  rw [hlast] at hadd
  refine ⟨links, hadd, hR.congr rfl rfl hvalid, ?_, ?_⟩
  · rw [List.range_succ, unusedNodes_append, unusedNodes_cons (Function.update_self ..),
      unusedNodes_update (by simp)]
    exact hholds
  · intro i hi
    by_cases hik : i = k
    · subst hik
      exact Function.update_self ..
    · have hne : poolNode w head size i ≠ poolNode w head size k := fun heq =>
        hik (poolNode_inj.mp heq)
      exact (Function.update_of_ne hne ..).trans (hC.chain i (by omega))

theorem PoolCarved.loop {amount : Nat} (new : Option Nat) (hR : PoolRoom w size head fl n m)
    (hC : PoolCarved w size head fl (k + 1) m)
    (hfree : ∀ i < k + 1, m.used (poolNode w head size i) = 0) (hk : k + 1 + amount ≤ n) :
    ∃ m', poolApartLoop w (apartSize w size) amount (poolNode w head size k) new m =
        some (if amount = 0 then new else some (poolNode w head size (k + amount)), m') ∧
      PoolRoom w size head fl n m' ∧ PoolCarved w size head fl (k + 1 + amount) m' ∧
      ∀ i < k + 1 + amount, m'.used (poolNode w head size i) = 0 := by
  induction amount generalizing k m new with
  | zero => exact ⟨m, rfl, hR, hC, hfree⟩
  | succ amount ih =>
    obtain ⟨links, hadd, hR', hC'⟩ := hC.round hR (hfree k (by omega)) (by omega)
    have hfree' : ∀ i < k + 1 + 1,
        Function.update m.used (poolNode w head size (k + 1)) 0 (poolNode w head size i) = 0 := by
      intro i hi
      by_cases hik : i = k + 1
      · rw [hik, Function.update_self]
      · rw [Function.update_of_ne fun heq => hik (poolNode_inj.mp heq)]
        exact hfree i (by omega)
    obtain ⟨m', hloop, hR'', hC'', hfree''⟩ :=
      ih (some (poolNode w head size (k + 1))) hR' hC' hfree' (by omega)
    have hsum : k + 1 + 1 + amount = k + 1 + (amount + 1) := by omega
    rw [hsum] at hC'' hfree''
    refine ⟨m', ?_, hR'', hC'', hfree''⟩
    have hnext : (PoolMem.setLinks
        { m with used := Function.update m.used (poolNode w head size (k + 1)) 0 } links).setNext w
        (poolNode w head size k) (poolNode w head size (k + 1)) = some _ :=
      if_pos (hR.has (by omega))
    rw [poolApartLoop, ← poolNode_succ, hR.setUsed (by omega)]
    simp only [Option.bind_eq_bind, Option.bind_some, hadd, hnext]
    refine hloop.trans ?_
    rw [if_neg (Nat.succ_ne_zero amount)]
    split
    · next hzero => rw [hzero]
    · next hne => rw [Nat.add_assoc, Nat.add_comm 1]

theorem PoolCarved.apart {amount : Nat} (hR : PoolRoom w size head fl n m)
    (hC : PoolCarved w size head fl 1 m) (hfree : m.used head = 0) (hn : amount + 1 = n)
    (hpos : 0 < amount) :
    ∃ m', poolApart w head amount (apartSize w size) m = some m' ∧ PoolShape w size head fl n m' ∧
      ∀ i < n, m'.used (poolNode w head size i) = 0 := by
  have hzero : poolNode w head size 0 = head := by rw [poolNode, Nat.mul_zero, Nat.add_zero]
  have hfirst : ∀ i < 0 + 1, m.used (poolNode w head size i) = 0 := by
    intro i hi
    rwa [Nat.lt_one_iff.mp hi, hzero]
  have hle : 0 + 1 + amount ≤ n := by omega
  obtain ⟨m₁, hloop, hR₁, hC₁, hfree₁⟩ := hC.loop none hR hfirst hle
  have hsum : 0 + 1 + amount = n := by omega
  rw [hzero, if_neg hpos.ne', Nat.zero_add] at hloop
  rw [hsum] at hC₁ hfree₁
  have hlt : amount < n := by omega
  refine ⟨{ m₁ with next := Function.update m₁.next (poolNode w head size amount) 0 }, ?_,
    ⟨hR₁.congr rfl rfl rfl, ⟨hC₁.ring, fun i hi => ?_⟩, fun i hi => ?_⟩, hfree₁⟩
  · rw [poolApart, hloop]
    simp only [Option.bind_eq_bind, Option.bind_some, hR₁.setNext hlt]
  · have hne : poolNode w head size i ≠ poolNode w head size amount := fun heq => by
      rw [poolNode_inj] at heq
      omega
    exact (Function.update_of_ne hne ..).trans (hC₁.chain i hi)
  · have hi : i = amount := by omega
    rw [hi]
    exact Function.update_self ..

/-- The fields of the head, and the nodes. -/
structure PoolHolds (w : WordSize) (size : UInt16) (amount : UInt8) (start : Nat) (pool : PoolHead) :
    Prop where
  addr : pool.addr = start
  count : pool.allCount = amount.toNat
  shape : PoolShape w size (start + w.headStructSize) (start + w.bytes) amount.toNat pool.mem

variable {amount : UInt8} {start : Nat} {pool : PoolHead} {before : PoolMem}

theorem poolRoom_granted (hmem : m = before.granted w start (memPoolTotal w size amount)) :
    PoolRoom w size (start + w.headStructSize) (start + w.bytes) amount.toNat m := by
  subst hmem
  refine ⟨Nat.le_add_right .., ?_, ?_, fun _ => rfl⟩
  · have hbytes := w.bytes_eq
    rw [headStructSize_eq]
    omega
  · have htotal := memPoolTotal_eq w size amount
    rw [Nat.mul_comm] at htotal
    change _ ≤ start + memPoolTotal w size amount
    omega

theorem poolNode_zero : poolNode w head size 0 = head := by rw [poolNode, Nat.mul_zero, Nat.add_zero]

theorem PoolRoom.first (hR : PoolRoom w size head fl n m) (hn : 0 < n) :
    ∃ l links, listNodeInit fl m.links = some l ∧
      listAddNext fl (freeNode w head) l = some links ∧
      PoolRoom w size head fl n
        { m with links := links, used := Function.update m.used head 0 } ∧
      PoolCarved w size head fl 1
        { m with links := links, used := Function.update m.used head 0 } := by
  have hnode := hR.valid_node hn
  have hnew := hR.fl_lt 0
  rw [poolNode_zero] at hnode hnew
  obtain ⟨l, hinit, hvalid, hempty⟩ := listNodeInit_holds hR.valid_list
  have hring : l.Holds fl ([] ++ []) := hempty
  obtain ⟨links, hadd, hvalid', hholds⟩ := listAddNext_holds hring (hvalid ▸ hnode) (by simp; omega)
  refine ⟨l, links, hinit, hadd, hR.congr rfl rfl (hvalid'.trans hvalid), ?_, fun i hi => by omega⟩
  have hfree : Function.update m.used head 0 (poolNode w head size 0) = 0 := by
    rw [poolNode_zero, Function.update_self]
  rw [List.range_one, unusedNodes_cons hfree, poolNode_zero]
  exact hholds

theorem memPoolCreate_spec (w : WordSize) (size : UInt16) (hamount : 2 ≤ amount.toNat)
    (before : PoolMem) (start : Nat) :
    ∃ pool, memPoolCreate w size amount before (some start) = some (some pool) ∧
      PoolHolds w size amount start pool ∧ pool.remainNode = amount.toNat ∧
      ∀ i < amount.toNat, pool.mem.used (poolNode w (start + w.headStructSize) size i) = 0 := by
  have hlt := amount.toNat_lt
  have hR : PoolRoom w size (start + w.headStructSize) (start + w.bytes) amount.toNat
      (before.granted w start (memPoolTotal w size amount)) := poolRoom_granted rfl
  have hset := hR.setUsed (i := 0) (by omega) 0
  rw [poolNode_zero] at hset
  obtain ⟨l, links, hinit, hadd, hR', hC'⟩ := hR.first (by omega)
  have hfirst : Function.update (before.granted w start (memPoolTotal w size amount)).used
      (start + w.headStructSize) 0 (start + w.headStructSize) = 0 := Function.update_self ..
  have hrounds : (amount.toNat + 255) % 256 = amount.toNat - 1 := by omega
  obtain ⟨m, hapart, hshape, hfree⟩ := hC'.apart hR' hfirst (show amount.toNat - 1 + 1 = _ by omega)
    (by omega)
  have hfits : ¬ (before.granted w start (memPoolTotal w size amount)).hi <
      start + sizeofPoolHead w := by
    change ¬ start + memPoolTotal w size amount < start + sizeofPoolHead w
    rw [memPoolTotal_eq, headStructSize_eq, sizeofPoolHead]
    omega
  refine ⟨⟨start, start + w.headStructSize, size.toNat, amount.toNat, amount.toNat, m⟩, ?_,
    ⟨rfl, rfl, hshape⟩, rfl, hfree⟩
  rw [memPoolCreate]
  dsimp only
  rw [if_neg hfits, hset, hrounds]
  simp only [Option.bind_eq_bind, Option.bind_some, PoolHead.freeList, hinit, hadd,
    PoolMem.setLinks, hapart]
  rfl

theorem PoolHolds.getNext (hH : PoolHolds w size amount start pool) :
    pool.mem.links.getNext (pool.freeList w) = some (pool.mem.links.next (start + w.bytes)) := by
  rw [PoolHead.freeList, hH.addr]
  exact if_pos hH.shape.room.valid_list

theorem PoolHolds.alloc_null (hH : PoolHolds w size amount start pool)
    (hall : ∀ i < amount.toNat,
      pool.mem.used (poolNode w (start + w.headStructSize) size i) ≠ 0) :
    memPoolAlloc w pool = some (none, pool) := by
  have hring := hH.shape.carved.ring
  rw [unusedNodes_eq_nil fun i hi => hall i (List.mem_range.mp hi)] at hring
  have hself : pool.mem.links.next (start + w.bytes) = start + w.bytes := hring.ring.forth
  have hfl : pool.freeList w = start + w.bytes := by rw [PoolHead.freeList, hH.addr]
  rw [memPoolAlloc, hH.getNext, hself]
  simp only [Option.bind_eq_bind, Option.bind_some, hfl, if_true]
  rfl

theorem PoolHolds.alloc_first (hH : PoolHolds w size amount start pool) (hi : i < amount.toNat)
    (hfree : pool.mem.used (poolNode w (start + w.headStructSize) size i) = 0)
    (hmin : ∀ j < i, pool.mem.used (poolNode w (start + w.headStructSize) size j) ≠ 0) :
    ∃ pool', memPoolAlloc w pool =
        some (some (poolNode w (start + w.headStructSize) size i + w.nodeStructSize), pool') ∧
      PoolHolds w size amount start pool' ∧
      pool'.mem.used = Function.update pool.mem.used
        (poolNode w (start + w.headStructSize) size i) 1 ∧
      pool'.remainNode = (pool.remainNode + 255) % 256 := by
  have hR := hH.shape.room
  have hfl : pool.freeList w = start + w.bytes := by rw [PoolHead.freeList, hH.addr]
  have hpre : unusedNodes w size (start + w.headStructSize) pool.mem.used (List.range i) = [] :=
    unusedNodes_eq_nil fun j hj => hmin j (List.mem_range.mp hj)
  -- the ring begins with node `i`
  have hring := hH.shape.carved.ring
  rw [range_split hi, unusedNodes_append, hpre, unusedNodes_cons hfree] at hring
  have hfirst := hring.ring.forth.first
  rw [List.nil_append, List.headD_cons] at hfirst
  obtain ⟨links, hremove, hvalid, hholds⟩ := listRemove_holds hring
  have hne : freeNode w (poolNode w (start + w.headStructSize) size i) ≠ start + w.bytes :=
    (hR.fl_lt i).ne'
  have hR' : PoolRoom w size (start + w.headStructSize) (start + w.bytes) amount.toNat
      (pool.mem.setLinks links) := hR.congr rfl rfl hvalid
  refine ⟨{ pool with
      remainNode := (pool.remainNode + 255) % 256
      mem := { pool.mem with
        links := links
        used := Function.update pool.mem.used (poolNode w (start + w.headStructSize) size i) 1 } },
    ?_, ⟨hH.addr, hH.count, hR'.congr rfl rfl rfl, ⟨?_, hH.shape.carved.chain⟩, hH.shape.last⟩,
    rfl, rfl⟩
  · rw [memPoolAlloc, hH.getNext, hfirst]
    simp only [Option.bind_eq_bind, Option.bind_some, hfl, if_neg hne, hremove,
      poolNodeOf_freeNode, hR'.getUsed hi, hR'.setUsed hi]
    exact if_pos hfree
  · rw [range_split hi, unusedNodes_append, unusedNodes_cons_used (by simp),
      unusedNodes_update (by simp), unusedNodes_update (by simp), hpre]
    exact hholds

/-- `mem_pool_alloc` takes the first node that is not used, if there is one. -/
theorem PoolHolds.alloc (hH : PoolHolds w size amount start pool) :
    (∀ i < amount.toNat, pool.mem.used (poolNode w (start + w.headStructSize) size i) ≠ 0) ∧
        memPoolAlloc w pool = some (none, pool) ∨
      ∃ i < amount.toNat, pool.mem.used (poolNode w (start + w.headStructSize) size i) = 0 ∧
        (∀ j < i, pool.mem.used (poolNode w (start + w.headStructSize) size j) ≠ 0) ∧
        ∃ pool', memPoolAlloc w pool =
            some (some (poolNode w (start + w.headStructSize) size i + w.nodeStructSize), pool') ∧
          PoolHolds w size amount start pool' ∧
          pool'.mem.used = Function.update pool.mem.used
            (poolNode w (start + w.headStructSize) size i) 1 ∧
          pool'.remainNode = (pool.remainNode + 255) % 256 := by
  by_cases hsome : ∃ i, i < amount.toNat ∧
      pool.mem.used (poolNode w (start + w.headStructSize) size i) = 0
  · apply Or.inr
    obtain ⟨hi, hfree⟩ := Nat.find_spec hsome
    have hmin : ∀ j < Nat.find hsome,
        pool.mem.used (poolNode w (start + w.headStructSize) size j) ≠ 0 := by
      intro j hj hzero
      exact Nat.find_min hsome hj ⟨hj.trans hi, hzero⟩
    exact ⟨_, hi, hfree, hmin, hH.alloc_first hi hfree hmin⟩
  · push Not at hsome
    exact Or.inl ⟨hsome, hH.alloc_null hsome⟩

/-- The node at the place `j` of the chain, or NULL behind the last one. -/
def chainAt (w : WordSize) (size : UInt16) (head n j : Nat) : Nat :=
  if j < n then poolNode w head size j else 0

/-- The walk along the chain ends where the ring goes on. -/
theorem nextUnused_spec {fuel : Nat} (hR : PoolRoom w size head fl n m)
    (hnext : ∀ i < n, m.next (poolNode w head size i) = chainAt w size head n (i + 1)) (hj : j ≤ n)
    (hfuel : n - j < fuel) :
    ∃ r, nextUnused w m fuel (chainAt w size head n j) = some r ∧
      (if r ≠ 0 then freeNode w r else fl) =
        (unusedNodes w size head m.used (List.range' j (n - j))).headD fl := by
  induction fuel generalizing j with
  | zero => omega
  | succ fuel ih =>
    rcases Nat.lt_or_eq_of_le hj with hlt | rfl
    · have hne := hR.node_pos j
      have hrange : List.range' j (n - j) = j :: List.range' (j + 1) (n - (j + 1)) := by
        rw [show n - j = n - (j + 1) + 1 by omega, List.range'_succ]
      rw [chainAt, if_pos hlt, nextUnused, if_neg hne, hR.getUsed hlt, hrange]
      simp only [Option.bind_eq_bind, Option.bind_some]
      by_cases hfree : m.used (poolNode w head size j) = 0
      · refine ⟨poolNode w head size j, if_pos hfree, ?_⟩
        rw [if_pos hne, unusedNodes_cons hfree, List.headD_cons]
      · obtain ⟨r, hr, hplace⟩ := ih hlt (by omega)
        refine ⟨r, ?_, ?_⟩
        · rw [if_neg hfree, hR.getNext hlt, Option.bind_some, hnext j hlt]
          exact hr
        · rw [unusedNodes_cons_used hfree]
          exact hplace
    · refine ⟨0, ?_, ?_⟩
      · rw [chainAt, if_neg (Nat.lt_irrefl j), nextUnused, if_pos rfl]
        rfl
      · rw [Nat.sub_self]
        rfl

theorem PoolShape.next_eq (hS : PoolShape w size head fl n m) (hi : i < n) :
    m.next (poolNode w head size i) = chainAt w size head n (i + 1) := by
  rw [chainAt]
  split
  · next hlt => exact hS.carved.chain i hlt
  · next hlast => exact hS.last i (by omega)

theorem PoolHolds.free (hH : PoolHolds w size amount start pool) (hi : i < amount.toNat)
    (hused : pool.mem.used (poolNode w (start + w.headStructSize) size i) ≠ 0) :
    ∃ pool', memPoolFree w pool
        (poolNode w (start + w.headStructSize) size i + w.nodeStructSize) = some pool' ∧
      PoolHolds w size amount start pool' ∧
      pool'.mem.used = Function.update pool.mem.used
        (poolNode w (start + w.headStructSize) size i) 0 ∧
      pool'.remainNode = pool.remainNode := by
  have hR := hH.shape.room
  have hfl : pool.freeList w = start + w.bytes := by rw [PoolHead.freeList, hH.addr]
  have hR₁ : PoolRoom w size (start + w.headStructSize) (start + w.bytes) amount.toNat
      { pool.mem with
        used := Function.update pool.mem.used
          (poolNode w (start + w.headStructSize) size i) 0 } := hR.congr rfl rfl rfl
  have hle : i + 1 ≤ amount.toNat := hi
  have hfuel : amount.toNat - (i + 1) < amount.toNat := by omega
  obtain ⟨r, hwalk, hplace⟩ := nextUnused_spec hR₁ (fun j hj => hH.shape.next_eq hj) hle hfuel
  dsimp only at hplace
  rw [unusedNodes_update (by simp)] at hplace
  -- the node goes between the unused ones before it and those after it
  have hring := hH.shape.carved.ring
  rw [range_split hi, unusedNodes_append, unusedNodes_cons_used hused, ← unusedNodes_append] at hring
  have hother : i ∉ List.range i ++ List.range' (i + 1) (amount.toNat - (i + 1)) := by simp
  have hnew := hR.freeNode_notMem hother
  rw [unusedNodes_append] at hring hnew
  obtain ⟨links, hadd, hvalid, hholds⟩ := listAddPrev_holds hring (hR.valid_node hi) hnew
  rw [← hplace] at hadd
  refine ⟨{ pool with
      mem := { pool.mem with
        links := links
        used := Function.update pool.mem.used (poolNode w (start + w.headStructSize) size i) 0 } },
    ?_, ⟨hH.addr, hH.count, hR.congr rfl rfl hvalid, ⟨?_, hH.shape.carved.chain⟩, hH.shape.last⟩,
    rfl, rfl⟩
  · have hpos : poolNode w (start + w.headStructSize) size i + w.nodeStructSize ≠ 0 := by
      have hne := hR.node_pos i
      omega
    rw [memPoolFree, if_neg hpos, Nat.add_sub_cancel]
    dsimp only
    rw [hR.setUsed hi]
    simp only [Option.bind_eq_bind, Option.bind_some, hR₁.getNext hi, hH.shape.next_eq hi, hH.count,
      hwalk, hfl]
    by_cases hr : r ≠ 0
    · rw [if_pos hr] at hadd ⊢
      rw [hadd]
      rfl
    · rw [if_neg hr] at hadd ⊢
      rw [hadd]
      rfl
  · rw [range_split hi, unusedNodes_append, unusedNodes_cons (Function.update_self ..),
      unusedNodes_update (by simp), unusedNodes_update (by simp)]
    exact hholds

end CcRpc
