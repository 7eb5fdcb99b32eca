import CcRpc.Lib.Endian

/-!
# The host a node is compiled for

The sources swap bytes unconditionally and keep lengths in `size_t`, so what they compute
depends on the byte order and on the word size of the machine. Both are parameters here.
-/

namespace CcRpc

abbrev Bytes := List UInt8

inductive ByteOrder where
  | little
  | big
  deriving DecidableEq, Repr

inductive WordSize where
  | w32
  | w64
  deriving DecidableEq, Repr

/-- `PLATFORM_BITS`. -/
def WordSize.bits : WordSize → Nat
  | .w32 => 32
  | .w64 => 64

/-- `sizeof(void *)`, which is also `sizeof(size_t)`. -/
def WordSize.bytes : WordSize → Nat
  | .w32 => 4
  | .w64 => 8

structure Host where
  order : ByteOrder
  word : WordSize
  deriving DecidableEq, Repr

/-- Conversion of a mathematical integer to `size_t`. -/
def WordSize.sizeT (w : WordSize) (n : Nat) : Nat := n % 2 ^ w.bits

theorem WordSize.sizeT_of_lt {w : WordSize} {n : Nat} (h : n < 2 ^ w.bits) : w.sizeT n = n :=
  Nat.mod_eq_of_lt h

theorem WordSize.sizeT_le (w : WordSize) (n : Nat) : w.sizeT n ≤ n := Nat.mod_le _ _

theorem WordSize.two_pow_le (w : WordSize) : 2 ^ 32 ≤ 2 ^ w.bits := by
  cases w <;> decide

def swap16 (v : UInt16) : UInt16 := (v >>> 8) ||| (v <<< 8)

def swap32 (v : UInt32) : UInt32 :=
  ((v >>> 24) &&& (0x000000FF : UInt32)) ||| ((v >>> 8) &&& (0x0000FF00 : UInt32)) |||
    ((v <<< 8) &&& (0x00FF0000 : UInt32)) ||| ((v <<< 24) &&& (0xFF000000 : UInt32))

def htons (v : UInt16) : UInt16 := swap16 v
def ntohs (v : UInt16) : UInt16 := swap16 v
def htonl (v : UInt32) : UInt32 := swap32 v
def ntohl (v : UInt32) : UInt32 := swap32 v

def ByteOrder.arrange : ByteOrder → Bytes → Bytes
  | .little, bs => bs
  | .big, bs => bs.reverse

def ByteOrder.store16 (o : ByteOrder) (v : UInt16) : Bytes := o.arrange (Endian.leBytes 2 v.toNat)
def ByteOrder.store32 (o : ByteOrder) (v : UInt32) : Bytes := o.arrange (Endian.leBytes 4 v.toNat)
def ByteOrder.load16 (o : ByteOrder) (bs : Bytes) : UInt16 :=
  UInt16.ofNat (Endian.leValue (o.arrange bs))
def ByteOrder.load32 (o : ByteOrder) (bs : Bytes) : UInt32 :=
  UInt32.ofNat (Endian.leValue (o.arrange bs))

@[simp] theorem ByteOrder.arrange_length (o : ByteOrder) (bs : Bytes) :
    (o.arrange bs).length = bs.length := by
  cases o <;> simp [arrange]

@[simp] theorem ByteOrder.arrange_arrange (o : ByteOrder) (bs : Bytes) :
    o.arrange (o.arrange bs) = bs := by
  cases o <;> simp [arrange]

@[simp] theorem ByteOrder.store16_length (o : ByteOrder) (v : UInt16) : (o.store16 v).length = 2 := by
  simp [store16]

@[simp] theorem ByteOrder.store32_length (o : ByteOrder) (v : UInt32) : (o.store32 v).length = 4 := by
  simp [store32]

@[simp] theorem ByteOrder.load16_store16 (o : ByteOrder) (v : UInt16) :
    o.load16 (o.store16 v) = v := by
  have hv : Endian.leValue (Endian.leBytes 2 v.toNat) = v.toNat :=
    Endian.leValue_leBytes_of_lt v.toNat_lt
  simp only [load16, store16, arrange_arrange, hv, UInt16.ofNat_toNat]

@[simp] theorem ByteOrder.load32_store32 (o : ByteOrder) (v : UInt32) :
    o.load32 (o.store32 v) = v := by
  have hv : Endian.leValue (Endian.leBytes 4 v.toNat) = v.toNat :=
    Endian.leValue_leBytes_of_lt v.toNat_lt
  simp only [load32, store32, arrange_arrange, hv, UInt32.ofNat_toNat]

theorem ByteOrder.store32_load32 (o : ByteOrder) {bs : Bytes} (h : bs.length = 4) :
    o.store32 (o.load32 bs) = bs := by
  have hlt : Endian.leValue (o.arrange bs) < 2 ^ 32 := by
    have := Endian.leValue_lt (o.arrange bs)
    rwa [arrange_length, h] at this
  have hback := Endian.leBytes_leValue (o.arrange bs)
  rw [arrange_length, h] at hback
  rw [store32, load32, UInt32.toNat_ofNat_of_lt' hlt, hback, arrange_arrange]

private theorem swap16_byte (v : UInt16) (i : Nat) (hi : i < 2) :
    (swap16 v).toNat / 256 ^ i % 256 = v.toNat / 256 ^ (1 - i) % 256 := by
  apply Nat.eq_of_testBit_eq
  intro j
  rw [show (256 : Nat) = 2 ^ 8 from rfl, ← Nat.pow_mul, ← Nat.pow_mul]
  simp only [Nat.testBit_mod_two_pow, Nat.testBit_div_two_pow]
  by_cases hj : j < 8
  · simp only [hj, decide_true, Bool.true_and, swap16, UInt16.toNat_or, UInt16.toNat_shiftLeft,
      UInt16.toNat_shiftRight, Nat.testBit_or, UInt16.reduceToNat, Nat.testBit_shiftRight,
      Nat.testBit_mod_two_pow, Nat.testBit_shiftLeft, Nat.reduceMod]
    have hv : ∀ k, 16 ≤ k → v.toNat.testBit k = false := fun k hk =>
      Nat.testBit_lt_two_pow (Nat.lt_of_lt_of_le v.toNat_lt (Nat.pow_le_pow_right (by decide) hk))
    interval_cases i <;> interval_cases j <;> simp [hv]
  · simp [hj]

private theorem swap32_byte (v : UInt32) (i : Nat) (hi : i < 4) :
    (swap32 v).toNat / 256 ^ i % 256 = v.toNat / 256 ^ (3 - i) % 256 := by
  apply Nat.eq_of_testBit_eq
  intro j
  rw [show (256 : Nat) = 2 ^ 8 from rfl, ← Nat.pow_mul, ← Nat.pow_mul]
  simp only [Nat.testBit_mod_two_pow, Nat.testBit_div_two_pow]
  by_cases hj : j < 8
  · simp only [hj, decide_true, Bool.true_and, swap32, UInt32.toNat_or, UInt32.toNat_and,
      UInt32.toNat_shiftLeft, UInt32.toNat_shiftRight, Nat.testBit_or, Nat.testBit_and,
      UInt32.reduceToNat, Nat.testBit_shiftRight, Nat.testBit_mod_two_pow, Nat.testBit_shiftLeft,
      Nat.reduceMod]
    interval_cases i <;> interval_cases j <;> simp [Nat.testBit, Nat.shiftRight_eq_div_pow]
  · simp [hj]

theorem leBytes_swap16 (v : UInt16) :
    Endian.leBytes 2 (swap16 v).toNat = (Endian.leBytes 2 v.toNat).reverse := by
  apply List.ext_getElem
  · simp
  · intro i hi _
    have hi' : i < 2 := by simpa using hi
    rw [Endian.leBytes_getElem, List.getElem_reverse, Endian.leBytes_getElem, swap16_byte v i hi']
    simp

theorem leBytes_swap32 (v : UInt32) :
    Endian.leBytes 4 (swap32 v).toNat = (Endian.leBytes 4 v.toNat).reverse := by
  apply List.ext_getElem
  · simp
  · intro i hi _
    have hi' : i < 4 := by simpa using hi
    rw [Endian.leBytes_getElem, List.getElem_reverse, Endian.leBytes_getElem, swap32_byte v i hi']
    simp

theorem swap16_swap16 (v : UInt16) : swap16 (swap16 v) = v := by
  have h : Endian.leBytes 2 (swap16 (swap16 v)).toNat = Endian.leBytes 2 v.toNat := by
    rw [leBytes_swap16, leBytes_swap16, List.reverse_reverse]
  have hv := congrArg Endian.leValue h
  rw [Endian.leValue_leBytes_of_lt (UInt16.toNat_lt _),
    Endian.leValue_leBytes_of_lt (UInt16.toNat_lt _)] at hv
  exact UInt16.toNat_inj.mp hv

theorem swap32_swap32 (v : UInt32) : swap32 (swap32 v) = v := by
  have h : Endian.leBytes 4 (swap32 (swap32 v)).toNat = Endian.leBytes 4 v.toNat := by
    rw [leBytes_swap32, leBytes_swap32, List.reverse_reverse]
  have hv := congrArg Endian.leValue h
  rw [Endian.leValue_leBytes_of_lt (UInt32.toNat_lt _),
    Endian.leValue_leBytes_of_lt (UInt32.toNat_lt _)] at hv
  exact UInt32.toNat_inj.mp hv

@[simp] theorem ntohs_htons (v : UInt16) : ntohs (htons v) = v := swap16_swap16 v
@[simp] theorem ntohl_htonl (v : UInt32) : ntohl (htonl v) = v := swap32_swap32 v

end CcRpc
