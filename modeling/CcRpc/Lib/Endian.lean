import Mathlib

/-!
# Byte strings as numbers

A number is stored as a fixed count of bytes, least significant first. The reversed string
is the other byte order, so only one order needs arithmetic.
-/

namespace Endian

/-- The `k` low bytes of `v`, least significant first. -/
def leBytes : Nat → Nat → List UInt8
  | 0, _ => []
  | k + 1, v => UInt8.ofNat (v % 256) :: leBytes k (v / 256)

/-- The number a byte string stands for, least significant byte first. -/
def leValue : List UInt8 → Nat
  | [] => 0
  | b :: bs => b.toNat + 256 * leValue bs

@[simp] theorem leBytes_length (k v : Nat) : (leBytes k v).length = k := by
  induction k generalizing v with
  | zero => rfl
  | succ k ih => simp [leBytes, ih]

theorem leValue_leBytes (k v : Nat) : leValue (leBytes k v) = v % 256 ^ k := by
  induction k generalizing v with
  | zero => simp [leBytes, leValue, Nat.mod_one]
  | succ k ih =>
    have hb : (UInt8.ofNat (v % 256)).toNat = v % 256 := by
      rw [UInt8.toNat_ofNat']
      omega
    rw [leBytes, leValue, ih, hb, Nat.pow_succ', Nat.mod_mul]

theorem leValue_leBytes_of_lt {k v : Nat} (h : v < 256 ^ k) : leValue (leBytes k v) = v := by
  rw [leValue_leBytes, Nat.mod_eq_of_lt h]

theorem leValue_lt (bs : List UInt8) : leValue bs < 256 ^ bs.length := by
  induction bs with
  | nil => simp [leValue]
  | cons b bs ih =>
    have hb := b.toNat_lt
    simp only [leValue, List.length_cons, Nat.pow_succ']
    omega

theorem leBytes_leValue (bs : List UInt8) : leBytes bs.length (leValue bs) = bs := by
  induction bs with
  | nil => rfl
  | cons b bs ih =>
    have hb := b.toNat_lt
    have hmod : (b.toNat + 256 * leValue bs) % 256 = b.toNat := by omega
    have hdiv : (b.toNat + 256 * leValue bs) / 256 = leValue bs := by omega
    simp only [List.length_cons, leValue, leBytes, hmod, hdiv, ih, UInt8.ofNat_toNat]

theorem leBytes_getElem (k v i : Nat) (hi : i < (leBytes k v).length) :
    (leBytes k v)[i] = UInt8.ofNat (v / 256 ^ i % 256) := by
  induction k generalizing v i with
  | zero => simp [leBytes] at hi
  | succ k ih =>
    cases i with
    | zero => simp [leBytes]
    | succ i =>
      have hi' : i < (leBytes k (v / 256)).length := by simpa [leBytes] using hi
      simp only [leBytes, List.getElem_cons_succ, ih _ _ hi', Nat.div_div_eq_div_mul]
      rw [← Nat.pow_succ']

/-- The big-endian value, most significant byte first. -/
def beValue (bs : List UInt8) : Nat := leValue bs.reverse

end Endian
