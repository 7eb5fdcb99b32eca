import CcRpc.Payload
import CcRpc.Lib.Runs

/-!
# Bitmap pools (`membit.c`)

A pool is one payload of the heap: a header and up to 32 blocks of one size behind it. Bit `i` of
the mask is set when block `i` is free.
-/

namespace CcRpc

/-- `ALIGN_BYTE`. -/
def alignByte : Nat := 0x07

/-- `sizeof(struct membit_pool)`: a 32-bit mask, a `size_t` and a byte, each padded to a word. -/
def sizeofMembitPool (w : WordSize) : Nat := 3 * w.bytes

/-- `head_size`. -/
def WordSize.membitHeadSize (w : WordSize) : Nat := clearAlignment (sizeofMembitPool w + alignByte)

/-- `struct membit_pool` and where it is. -/
structure MembitPool where
  addr : Nat
  bitmask : BitVec 32
  blockSize : Nat
  count : Nat
  deriving DecidableEq

/-- `lowbit_index`, the count of trailing zeros. -/
def lowbitIndex (v : BitVec 32) : Nat :=
  ((List.range 32).find? fun i => v.getLsbD i).getD 32

/-- All of `count` blocks free. -/
def fullMask (count : Nat) : BitVec 32 :=
  if count = 32 then 0xFFFFFFFF#32 else (1#32 <<< count) - 1#32

/-- The block size of `membit_create`, kept in 16 bits all along. -/
def roundedBlock (size : UInt16) : Nat :=
  if size.toNat &&& alignByte ≠ 0 then clearAlignment ((size.toNat + alignByte) % 2 ^ 16)
  else size.toNat

def clampedCount (count : UInt8) : Nat := if count.toNat > 32 then 32 else count.toNat

/-- What `membit_create` asks `heap_malloc` for. -/
def membitTotal (w : WordSize) (size : UInt16) (count : UInt8) : Nat :=
  w.membitHeadSize + roundedBlock size * clampedCount count

/-- `membit_create`, given what `heap_malloc` answers to its request. -/
def membitCreate (size : UInt16) (count : UInt8) (answer : Option Nat) : Option MembitPool :=
  answer.map fun p =>
    { addr := p
      bitmask := fullMask (clampedCount count)
      blockSize := roundedBlock size
      count := clampedCount count }

variable (w : WordSize)

/-- `base`, where the blocks begin. -/
def MembitPool.base (pool : MembitPool) : Nat := pool.addr + w.membitHeadSize

/-- `membit_alloc`. A product of a 16-bit size and a bit index does not wrap. -/
def membitAlloc (pool : MembitPool) : Option Nat × MembitPool :=
  if pool.bitmask = 0 then (none, pool)
  else
    let idx := lowbitIndex pool.bitmask
    (some (pool.base w + pool.blockSize * idx),
      { pool with bitmask := pool.bitmask &&& ~~~(1#32 <<< idx) })

/-- `membit_free`; `none` when the division or the shift is undefined. -/
def membitFree (pool : MembitPool) (addr : Nat) : Option MembitPool :=
  if addr = 0 then some pool
  else
    let off := w.sub addr (pool.base w)
    if pool.blockSize = 0 then none
    else
      let idx := off / pool.blockSize % 2 ^ 8
      if idx < 32 then some { pool with bitmask := pool.bitmask ||| (1#32 <<< idx) } else none

def membitReset (pool : MembitPool) : MembitPool := { pool with bitmask := fullMask pool.count }

theorem and_alignByte (x : Nat) : x &&& alignByte = x % 8 := and_alignmentByte x

theorem roundedBlock_eq (size : UInt16) :
    roundedBlock size = if size.toNat ≤ 65528 then (size.toNat + 7) / 8 * 8 else 0 := by
  have hlt := size.toNat_lt
  simp only [roundedBlock, and_alignByte, clearAlignment_eq]
  simp only [alignByte]
  split <;> split <;> omega

theorem le_roundedBlock {size : UInt16} (hsize : size.toNat ≤ 65528) :
    size.toNat ≤ roundedBlock size := by
  rw [roundedBlock_eq, if_pos hsize]
  omega

theorem roundedBlock_of_lt {size : UInt16} (hsize : 65528 < size.toNat) : roundedBlock size = 0 := by
  rw [roundedBlock_eq, if_neg (by omega)]

theorem roundedBlock_pos {size : UInt16} (hpos : 0 < size.toNat) (hsize : size.toNat ≤ 65528) :
    0 < roundedBlock size :=
  hpos.trans_le (le_roundedBlock hsize)

theorem clampedCount_le (count : UInt8) : clampedCount count ≤ 32 := by
  unfold clampedCount
  split <;> omega

theorem clampedCount_eq (count : UInt8) : clampedCount count = min count.toNat 32 := by
  unfold clampedCount
  split <;> omega

theorem getLsbD_fullMask {count : Nat} (hcount : count ≤ 32) (i : Nat) :
    (fullMask count).getLsbD i = decide (i < count) := by
  unfold fullMask
  split
  · next heq =>
    have hones : (0xFFFFFFFF#32).getLsbD i = (BitVec.allOnes 32).getLsbD i := rfl
    rw [hones, BitVec.getLsbD_allOnes, heq]
  · next hne =>
    have hlt : 2 ^ count < 2 ^ 32 := Nat.pow_lt_pow_right (by decide) (by omega)
    have hpos : 0 < 2 ^ count := Nat.two_pow_pos count
    have hmask : ((1#32 <<< count) - 1#32).toNat = 2 ^ count - 1 := by
      have hone : (1#32 <<< count).toNat = 2 ^ count := by
        rw [BitVec.toNat_shiftLeft, BitVec.toNat_ofNat, Nat.shiftLeft_eq, Nat.one_mod, one_mul,
          Nat.mod_eq_of_lt hlt]
      rw [BitVec.toNat_sub, hone, BitVec.toNat_ofNat]
      omega
    rw [← BitVec.testBit_toNat, hmask, Nat.testBit_two_pow_sub_one]

theorem getLsbD_one_shiftLeft {idx : Nat} (hidx : idx < 32) (i : Nat) :
    (1#32 <<< idx).getLsbD i = decide (i = idx) := by
  have htwo : 1#32 <<< idx = BitVec.twoPow 32 idx := rfl
  rw [htwo, BitVec.getLsbD_twoPow]
  simp [hidx, eq_comm]

theorem lowbitIndex_spec {v : BitVec 32} (hv : v ≠ 0) :
    lowbitIndex v < 32 ∧ v.getLsbD (lowbitIndex v) = true := by
  unfold lowbitIndex
  cases hfind : (List.range 32).find? fun i => v.getLsbD i with
  | none =>
    refine absurd (BitVec.eq_of_getLsbD_eq fun i hi => ?_) hv
    have hbit := List.find?_eq_none.mp hfind i (List.mem_range.mpr hi)
    simpa using hbit
  | some i =>
    obtain ⟨hbit, hmem, -⟩ := List.find?_range_eq_some.mp hfind
    exact ⟨List.mem_range.mp hmem, hbit⟩

theorem getLsbD_take {v : BitVec 32} {idx : Nat} (hidx : idx < 32) (i : Nat) :
    (v &&& ~~~(1#32 <<< idx)).getLsbD i = true ↔ v.getLsbD i = true ∧ i ≠ idx := by
  rw [BitVec.getLsbD_and, BitVec.getLsbD_not, getLsbD_one_shiftLeft hidx]
  have hlt : v.getLsbD i = true → i < 32 := BitVec.lt_of_getLsbD
  simp only [Bool.and_eq_true, decide_eq_true_eq, Bool.not_eq_true', decide_eq_false_iff_not]
  tauto

theorem getLsbD_give {v : BitVec 32} {idx : Nat} (hidx : idx < 32) (i : Nat) :
    (v ||| (1#32 <<< idx)).getLsbD i = true ↔ v.getLsbD i = true ∨ i = idx := by
  rw [BitVec.getLsbD_or, getLsbD_one_shiftLeft hidx]
  simp

end CcRpc
