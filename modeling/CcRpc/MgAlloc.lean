import CcRpc.Membit

/-!
# Regions (`mg_alloc.c`)

A region serves requests until it is reset as a whole. A pool region has a list of bitmap pools for
each power of two up to a limit; a bump region cuts one buffer from the front.
-/

namespace CcRpc

/-- `__builtin_clz` of a 32-bit number other than 0. -/
def builtinClz (v : Nat) : Nat := 31 - Nat.log2 v

def log2Clz32 (v : Nat) : Nat := 31 - builtinClz v

def nextPowerOfTwoIndexU32 (x : Nat) : Nat := if x ≤ 1 then 0 else log2Clz32 (x - 1) + 1

/-- `MG_MAX_CLASS_BITS`. -/
def mgMaxClassBits : Nat := 12

/-- `MG_MIN_CLASS_BYTES`. -/
def mgMinClassBytes : Nat := 32

/-- `struct mg_pool_node` and where it is. -/
structure MgPoolNode where
  addr : Nat
  pool : MembitPool
  blockCount : Nat
  blockSize : Nat

/-- `struct mg_class`; the list by `next`. -/
structure MgClass where
  pools : List MgPoolNode
  blockSize : Nat

/-- The pool half of `struct mg_region`, and the `pool` of each block header, by the block's address. -/
structure MgPools where
  maxBits : Nat
  classes : Nat → MgClass
  headers : Nat → Nat

/-- `struct mg_bump_state`. -/
structure MgBump where
  buf : Nat
  cap : Nat
  off : Nat

/-- `struct mg_region`. -/
inductive MgRegion where
  | pool (r : MgPools)
  | bump (b : MgBump)

/-- What `heap_malloc` is going to answer, one call after the other; after that it refuses. -/
abbrev HeapAnswers := List (Option Nat)

def HeapAnswers.pop : HeapAnswers → Option Nat × HeapAnswers
  | [] => (none, [])
  | a :: as => (a, as)

variable (w : WordSize)

/-- `sizeof(struct mg_block_header)`, a pointer. -/
def sizeofBlockHeader : Nat := w.bytes

/-- `mg_pool_block_count`. -/
def mgPoolBlockCount (blockSize : Nat) : Nat :=
  if blockSize ≤ 64 then 8 else if blockSize ≤ 128 then 2 else 1

/-- `mg_pool_node_new`. -/
def mgPoolNodeNew (blockSize : Nat) (answers : HeapAnswers) : Option MgPoolNode × HeapAnswers :=
  let count := mgPoolBlockCount blockSize
  let (answer, answers) := answers.pop
  match membitCreate (UInt16.ofNat blockSize) (UInt8.ofNat count) answer with
  | none => (none, answers)
  | some p =>
    match answers.pop with
    | (none, answers) => (none, answers)
    | (some n, answers) => (some ⟨n, p, count, blockSize % 2 ^ 16⟩, answers)

/-- The region `mg_region_create_pool` fills in. -/
def mgEmptyPools (maxClassBits : UInt8) : MgPools where
  maxBits := if maxClassBits.toNat > mgMaxClassBits then mgMaxClassBits else maxClassBits.toNat
  classes := fun i => ⟨[], 1 <<< i⟩
  headers := fun _ => 0

/-- `mg_region_create_pool`. -/
def mgRegionCreatePool (maxClassBits : UInt8) (answers : HeapAnswers) : Option MgRegion × HeapAnswers :=
  match answers.pop with
  | (none, answers) => (none, answers)
  | (some _, answers) => (some (.pool (mgEmptyPools maxClassBits)), answers)

/-- `mg_region_create_bump`. -/
def mgRegionCreateBump (cap : Nat) (answers : HeapAnswers) : Option MgRegion × HeapAnswers :=
  match answers.pop with
  | (none, answers) => (none, answers)
  | (some _, answers) =>
    match answers.pop with
    | (none, answers) => (none, answers)
    | (some buf, answers) => (some (.bump ⟨buf, cap, 0⟩), answers)

def MgPools.setPools (r : MgPools) (b : Nat) (pools : List MgPoolNode) : MgPools :=
  { r with classes := Function.update r.classes b { r.classes b with pools := pools } }

def MgPools.setHeader (r : MgPools) (blk pool : Nat) : MgPools :=
  { r with headers := Function.update r.headers blk pool }

/-- The inner `for` of `mg_region_alloc_class`: a block of the first pool of a list that has one, and
the pool it is of. -/
def allocFromPools : List MgPoolNode → Option (Nat × Nat × List MgPoolNode)
  | [] => none
  | n :: ns =>
    match membitAlloc w n.pool with
    | (some blk, pool) => some (blk, n.pool.addr, { n with pool := pool } :: ns)
    | (none, _) => (allocFromPools ns).map fun (blk, p, ns) => (blk, p, n :: ns)

/-- The outer `for`, over `count` classes from `b` on. -/
def allocFromClasses (r : MgPools) : Nat → Nat → Option (Nat × Nat × MgPools)
  | 0, _ => none
  | count + 1, b =>
    match allocFromPools w (r.classes b).pools with
    | some (blk, p, pools) => some (blk, p, r.setPools b pools)
    | none => allocFromClasses r count (b + 1)

/-- `bits`, the class a size asks for. -/
def classBits (size : Nat) : Nat :=
  nextPowerOfTwoIndexU32 (w.sizeT (size + sizeofBlockHeader w) % 2 ^ 32)

/-- `mg_region_alloc_class`. -/
def mgRegionAllocClass (r : MgPools) (size : Nat) (answers : HeapAnswers) :
    Option Nat × MgPools × HeapAnswers :=
  let bits := classBits w size
  if r.maxBits < bits then (none, r, answers)
  else
    match allocFromClasses w r (r.maxBits + 1 - bits) bits with
    | some (blk, p, r) => (some (blk + sizeofBlockHeader w), r.setHeader blk p, answers)
    | none =>
      match mgPoolNodeNew (r.classes bits).blockSize answers with
      | (none, answers) => (none, r, answers)
      | (some n, answers) =>
        match membitAlloc w n.pool with
        | (none, _) => (none, r.setPools bits (n :: (r.classes bits).pools), answers)
        | (some blk, pool) =>
          (some (blk + sizeofBlockHeader w),
            (r.setPools bits ({ n with pool := pool } :: (r.classes bits).pools)).setHeader blk
              n.pool.addr, answers)

/-- `(size + 3) & ~3`. -/
def roundedBump (size : Nat) : Nat := w.sizeT (size + 3) - (w.sizeT (size + 3) &&& 3)

/-- `mg_region_alloc_bump`. -/
def mgRegionAllocBump (b : MgBump) (size : Nat) : Option Nat × MgBump :=
  let size := roundedBump w size
  if b.cap < w.sizeT (b.off + size) then (none, b)
  else (some (b.buf + b.off), { b with off := w.sizeT (b.off + size) })

/-- `mg_region_alloc`. -/
def mgRegionAlloc (r : MgRegion) (size : Nat) (answers : HeapAnswers) :
    Option Nat × MgRegion × HeapAnswers :=
  if size = 0 then (none, r, answers)
  else
    match r with
    | .bump b =>
      let (p, b) := mgRegionAllocBump w b size
      (p, .bump b, answers)
    | .pool r =>
      let size := if size < mgMinClassBytes then mgMinClassBytes else size
      let (p, r, answers) := mgRegionAllocClass w r size answers
      (p, .pool r, answers)

def MgPoolNode.reset (n : MgPoolNode) : MgPoolNode := { n with pool := membitReset n.pool }

/-- The `for` loops of `mg_region_reset`. -/
def MgPools.reset (r : MgPools) : MgPools :=
  { r with
    classes := fun i =>
      if i ≤ r.maxBits then
        { r.classes i with pools := (r.classes i).pools.map MgPoolNode.reset }
      else r.classes i }

/-- `mg_region_reset`. -/
def mgRegionReset : MgRegion → MgRegion
  | .bump b => .bump { b with off := 0 }
  | .pool r => .pool r.reset

/-- A region with what it handed out since the last reset: pointers and the sizes asked for. -/
structure RegionSys where
  region : MgRegion
  results : List (Nat × Nat)

/-- A call; an allocation with what `heap_malloc` answers during it. -/
inductive RegionOp where
  | alloc (size : Nat) (answers : HeapAnswers)
  | reset

/-- One call. -/
def regionStep (s : RegionSys) : RegionOp → Option RegionSys
  | .alloc size answers =>
    let (p, r, _) := mgRegionAlloc w s.region size answers
    some ⟨r, (p.map fun p => (p, size)).toList ++ s.results⟩
  | .reset => some ⟨mgRegionReset s.region, []⟩

theorem nextPowerOfTwoIndexU32_spec {x : Nat} (hx : x < 2 ^ 32) :
    x ≤ 2 ^ nextPowerOfTwoIndexU32 x := by
  unfold nextPowerOfTwoIndexU32
  split
  · next hle => simpa using hle
  · next hgt =>
    have hlog : Nat.log2 (x - 1) < 32 := (Nat.log2_lt (by omega)).mpr (by omega)
    have hclz : log2Clz32 (x - 1) = Nat.log2 (x - 1) := by
      rw [log2Clz32, builtinClz]
      omega
    have hlt : x - 1 < 2 ^ (Nat.log2 (x - 1) + 1) := Nat.lt_log2_self
    rw [hclz]
    omega

/-- The class of a size whose header does not take it to 2^32 has room for both. -/
theorem le_two_pow_classBits {size : Nat} (hsize : size + sizeofBlockHeader w < 2 ^ 32) :
    size + sizeofBlockHeader w ≤ 2 ^ classBits w size := by
  have hle := w.two_pow_le
  have hspec := nextPowerOfTwoIndexU32_spec hsize
  have hneed : w.sizeT (size + sizeofBlockHeader w) % 2 ^ 32 = size + sizeofBlockHeader w := by
    rw [WordSize.sizeT_of_lt (by omega), Nat.mod_eq_of_lt hsize]
  rwa [classBits, hneed]

theorem roundedBump_eq (size : Nat) :
    roundedBump w size = w.sizeT (size + 3) / 4 * 4 := by
  have hmod : w.sizeT (size + 3) &&& 3 = w.sizeT (size + 3) % 4 :=
    Nat.and_two_pow_sub_one_eq_mod _ 2
  rw [roundedBump, hmod]
  omega

end CcRpc
