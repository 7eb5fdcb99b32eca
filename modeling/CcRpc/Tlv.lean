import CcRpc.Host
import CcRpc.Lib.Framing

/-!
# TLV writers and readers (`rpc_tlv.c`)

The writers store through a pointer that carries no bound, so the buffer they write into is
explicit here and a store outside it is undefined behaviour, written `none`. The readers carry
the number of bytes left and refuse what does not fit.
-/

namespace CcRpc

/-- `memcpy(&buf[off], data, n)`. A store outside the buffer is undefined behaviour. -/
def memcpy (buf : Bytes) (off : Nat) (data : Bytes) : Option Bytes :=
  if off + data.length ≤ buf.length then
    some (buf.take off ++ data ++ buf.drop (off + data.length))
  else none

/-- `strlen`: the bytes before the first NUL. A string is held without its terminator. -/
def strlen (s : Bytes) : Nat := (s.takeWhile (· ≠ 0)).length

/-- The C string stored in `s`: what a reader of the `char *` sees. -/
def cstr (s : Bytes) : Bytes := s.takeWhile (· ≠ 0)

@[simp] theorem length_cstr (s : Bytes) : (cstr s).length = strlen s := rfl

theorem take_strlen (s : Bytes) : s.take (strlen s) = cstr s := by
  have h := List.takeWhile_append_dropWhile (p := fun b : UInt8 => decide (b ≠ 0)) (l := s)
  unfold strlen cstr
  nth_rewrite 2 [← h]
  exact List.take_left

theorem cstr_of_not_mem {s : Bytes} (h : (0 : UInt8) ∉ s) : cstr s = s := by
  unfold cstr
  rw [List.takeWhile_eq_self_iff]
  intro b hb
  have : b ≠ 0 := fun hb0 => h (hb0 ▸ hb)
  simp [this]

theorem zero_not_mem_cstr (s : Bytes) : (0 : UInt8) ∉ cstr s := by
  intro h
  have := List.mem_takeWhile_imp h
  simp at this

@[simp] theorem memcpy_nil {buf : Bytes} {off : Nat} (h : off ≤ buf.length) :
    memcpy buf off [] = some buf := by
  simp [memcpy, h]

theorem memcpy_eq_some {buf data : Bytes} {off : Nat} (h : off + data.length ≤ buf.length) :
    memcpy buf off data = some (buf.take off ++ data ++ buf.drop (off + data.length)) :=
  if_pos h

theorem memcpy_eq_none {buf data : Bytes} {off : Nat} (h : buf.length < off + data.length) :
    memcpy buf off data = none :=
  if_neg (Nat.not_le.mpr h)

theorem memcpy_length {buf data buf' : Bytes} {off : Nat} (h : memcpy buf off data = some buf') :
    buf'.length = buf.length := by
  unfold memcpy at h
  split at h
  · next hle =>
    cases h
    simp only [List.length_append, List.length_take, List.length_drop]
    omega
  · cases h

theorem memcpy_bind_memcpy (buf a b : Bytes) (off : Nat) :
    ((memcpy buf off a).bind fun buf => memcpy buf (off + a.length) b) =
      memcpy buf off (a ++ b) := by
  by_cases ha : off + a.length ≤ buf.length
  · rw [memcpy_eq_some ha, Option.bind_some]
    have hlen : (buf.take off ++ a ++ buf.drop (off + a.length)).length = buf.length :=
      memcpy_length (memcpy_eq_some ha)
    by_cases hb : off + a.length + b.length ≤ buf.length
    · have hpre : (buf.take off ++ a).length = off + a.length := by
        simp only [List.length_append, List.length_take]
        omega
      rw [memcpy_eq_some (by omega), memcpy_eq_some (by simp only [List.length_append]; omega)]
      rw [List.take_left' hpre, ← hpre, List.drop_append, hpre]
      have hdrop : (buf.take off ++ a).drop (off + a.length + b.length) = [] := by
        apply List.drop_eq_nil_of_le
        omega
      rw [hdrop]
      simp only [List.nil_append, List.drop_drop, List.append_assoc, List.length_append]
      have harith : off + a.length + (off + a.length + b.length - (off + a.length)) =
          off + (a.length + b.length) := by omega
      rw [harith]
    · rw [memcpy_eq_none (by omega), memcpy_eq_none (by simp only [List.length_append]; omega)]
  · rw [memcpy_eq_none (by omega), memcpy_eq_none (by simp only [List.length_append]; omega)]
    rfl

theorem take_of_memcpy {buf data buf' : Bytes} {off : Nat} (h : memcpy buf off data = some buf') :
    buf'.take (off + data.length) = buf.take off ++ data := by
  unfold memcpy at h
  split at h
  · next hle =>
    cases h
    apply List.take_left'
    simp only [List.length_append, List.length_take]
    omega
  · cases h

def tlvWriteU32 (o : ByteOrder) (buf : Bytes) (off : Nat) (v : UInt32) : Option (Bytes × Nat) := do
  let buf ← memcpy buf off [0x01]
  let buf ← memcpy buf (off + 1) [4]
  let buf ← memcpy buf (off + 2) [0]
  let buf ← memcpy buf (off + 3) (o.store32 v)
  return (buf, 1 + 2 + 4)

def tlvWriteBytes (buf : Bytes) (off : Nat) (data : Bytes) : Option (Bytes × Nat) := do
  let len := data.length
  let buf ← memcpy buf off [0x03]
  let buf ← memcpy buf (off + 1) [UInt8.ofNat (len &&& 0xFF)]
  let buf ← memcpy buf (off + 2) [UInt8.ofNat ((len >>> 8) &&& 0xFF)]
  let buf ← memcpy buf (off + 3) data
  return (buf, 1 + 2 + len)

def tlvWriteString (buf : Bytes) (off : Nat) (s : Bytes) : Option (Bytes × Nat) := do
  let len := strlen s
  let buf ← memcpy buf off [0x02]
  let buf ← memcpy buf (off + 1) [UInt8.ofNat (len &&& 0xFF)]
  let buf ← memcpy buf (off + 2) [UInt8.ofNat ((len >>> 8) &&& 0xFF)]
  let buf ← memcpy buf (off + 3) (s.take len)
  return (buf, 1 + 2 + len)

/-- What a writer puts on the wire: the type, the low 16 bits of the length, the data. -/
def tlv (type : UInt8) (data : Bytes) : Bytes :=
  [type, UInt8.ofNat (data.length &&& 0xFF), UInt8.ofNat ((data.length >>> 8) &&& 0xFF)] ++ data

@[simp] theorem tlv_length (type : UInt8) (data : Bytes) :
    (tlv type data).length = 3 + data.length := by
  simp only [tlv, List.length_append, List.length_cons, List.length_nil]

private theorem memcpy_chain (buf : Bytes) (off : Nat) (a b c : UInt8) (data : Bytes) :
    (do
      let buf ← memcpy buf off [a]
      let buf ← memcpy buf (off + 1) [b]
      let buf ← memcpy buf (off + 2) [c]
      let buf ← memcpy buf (off + 3) data
      return (buf, 1 + 2 + data.length) : Option (Bytes × Nat)) =
      (memcpy buf off ([a, b, c] ++ data)).map fun buf => (buf, 3 + data.length) := by
  have h := memcpy_bind_memcpy buf [a, b, c] data off
  have habc := memcpy_bind_memcpy buf [a, b] [c] off
  have hab := memcpy_bind_memcpy buf [a] [b] off
  simp only [List.length_cons, List.length_nil, Nat.zero_add, Nat.reduceAdd,
    List.cons_append, List.nil_append] at h habc hab
  rw [List.cons_append, List.cons_append, List.cons_append, List.nil_append, ← h, ← habc, ← hab]
  simp only [bind, pure, Option.bind_assoc, Option.map_bind, Function.comp_def]
  congr 1
  funext b1
  congr 1
  funext b2
  congr 1
  funext b3
  cases memcpy b3 (off + 3) data <;> rfl

theorem tlvWriteU32_eq (o : ByteOrder) (buf : Bytes) (off : Nat) (v : UInt32) :
    tlvWriteU32 o buf off v =
      (memcpy buf off (tlv 0x01 (o.store32 v))).map fun buf => (buf, 3 + (o.store32 v).length) := by
  have h := memcpy_chain buf off 0x01 4 0 (o.store32 v)
  simpa [tlv, tlvWriteU32] using h

theorem tlvWriteBytes_eq (buf : Bytes) (off : Nat) (data : Bytes) :
    tlvWriteBytes buf off data =
      (memcpy buf off (tlv 0x03 data)).map fun buf => (buf, 3 + data.length) :=
  memcpy_chain buf off _ _ _ data

theorem tlvWriteString_eq (buf : Bytes) (off : Nat) (s : Bytes) :
    tlvWriteString buf off s =
      (memcpy buf off (tlv 0x02 (cstr s))).map fun buf => (buf, 3 + (cstr s).length) := by
  have h := memcpy_chain buf off 0x02 (UInt8.ofNat (strlen s &&& 0xFF))
    (UInt8.ofNat ((strlen s >>> 8) &&& 0xFF)) (cstr s)
  rw [tlvWriteString]
  simp only [take_strlen]
  exact h

/-- `tlv_read`: the type, the memory at `value`, and the length. `none` is its return value 0. -/
def tlvRead (p : Bytes) (remain : Nat) : Option (UInt8 × Bytes × Nat) :=
  if remain < 3 then none
  else
    let len := (p.getD 1 0).toNat ||| ((p.getD 2 0).toNat <<< 8)
    if remain < 3 + len then none else some (p.getD 0 0, p.drop 3, len)

/-- Why a reader does not deliver a value: it returned 0, or it wrote through the result of a
failed `heap_malloc`. -/
inductive ReadError where
  | rejected
  | nullWrite
  deriving DecidableEq, Repr

/-- `tlv_read_string`; `ok` is the outcome of its `heap_malloc(len + 1)`, which it does not check. -/
def tlvReadString (ok : Bool) (p : Bytes) (remain : Nat) : Except ReadError (Bytes × Nat) :=
  match tlvRead p remain with
  | none => .error .rejected
  | some (type, value, len) =>
    if type ≠ 0x02 then .error .rejected
    else if ok then .ok (value.take len, 3 + len)
    else .error .nullWrite

def tlvReadU32 (o : ByteOrder) (p : Bytes) (remain : Nat) : Except ReadError (UInt32 × Nat) :=
  match tlvRead p remain with
  | none => .error .rejected
  | some (type, value, len) =>
    if type ≠ 0x01 ∨ len ≠ 4 then .error .rejected
    else .ok (o.load32 (value.take 4), 3 + len)

def tlvReadI32 (o : ByteOrder) (p : Bytes) (remain : Nat) : Except ReadError (Int32 × Nat) :=
  match tlvRead p remain with
  | none => .error .rejected
  | some (type, value, len) =>
    if type ≠ 0x01 ∨ len ≠ 4 then .error .rejected
    else .ok ((o.load32 (value.take 4)).toInt32, 3 + len)

/-- `tlv_read_bytes`; `ok` is the outcome of its unchecked `heap_malloc(len)`. Nothing is written
through a NULL pointer when `len` is 0. -/
def tlvReadBytes (ok : Bool) (p : Bytes) (remain : Nat) : Except ReadError (Bytes × Nat) :=
  match tlvRead p remain with
  | none => .error .rejected
  | some (type, value, len) =>
    if type ≠ 0x03 then .error .rejected
    else if ok ∨ len = 0 then .ok (value.take len, 3 + len)
    else .error .nullWrite

private theorem low_byte (n : Nat) : (UInt8.ofNat (n &&& 0xFF)).toNat = n % 256 := by
  rw [UInt8.toNat_ofNat', show (0xFF : Nat) = 2 ^ 8 - 1 from rfl, Nat.and_two_pow_sub_one_eq_mod]
  omega

theorem lenHeader_value (n : Nat) :
    (UInt8.ofNat (n &&& 0xFF)).toNat ||| ((UInt8.ofNat ((n >>> 8) &&& 0xFF)).toNat <<< 8) =
      n % 65536 := by
  have hlow : n % 256 < 2 ^ 8 := Nat.mod_lt _ (by decide)
  rw [low_byte, low_byte, Nat.shiftRight_eq_div_pow, Nat.or_comm,
    ← Nat.shiftLeft_add_eq_or_of_lt hlow, Nat.shiftLeft_eq]
  omega

private theorem lenHeader_mod (n : Nat) :
    UInt8.ofNat (n % 65536 &&& 0xFF) = UInt8.ofNat (n &&& 0xFF) ∧
      UInt8.ofNat (((n % 65536) >>> 8) &&& 0xFF) = UInt8.ofNat ((n >>> 8) &&& 0xFF) := by
  constructor <;> apply UInt8.toNat_inj.mp <;>
    simp only [low_byte, Nat.shiftRight_eq_div_pow] <;> omega

/-- The header keeps 16 bits of the length, so on the wire a long TLV is the TLV of its first
`len mod 65536` data bytes followed by the other data bytes. -/
theorem tlv_eq_short (type : UInt8) (data : Bytes) :
    tlv type data =
      tlv type (data.take (data.length % 65536)) ++ data.drop (data.length % 65536) := by
  have hle : data.length % 65536 ≤ data.length := Nat.mod_le _ _
  obtain ⟨h1, h2⟩ := lenHeader_mod data.length
  simp only [tlv, List.length_take_of_le hle, h1, h2, List.cons_append, List.nil_append,
    List.take_append_drop]

theorem tlvRead_tlv (type : UInt8) {data : Bytes} (hdata : data.length < 65536) (m : Bytes)
    (remain : Nat) :
    tlvRead (tlv type data ++ m) remain =
      if remain < 3 + data.length then none else some (type, data ++ m, data.length) := by
  have hlen : (UInt8.ofNat (data.length &&& 0xFF)).toNat |||
      ((UInt8.ofNat ((data.length >>> 8) &&& 0xFF)).toNat <<< 8) = data.length := by
    rw [lenHeader_value, Nat.mod_eq_of_lt hdata]
  simp only [tlvRead, tlv, List.cons_append, List.nil_append, List.getD_cons_succ,
    List.getD_cons_zero, hlen, List.drop_succ_cons, List.drop_zero]
  by_cases h3 : remain < 3
  · rw [if_pos h3, if_pos (by omega)]
  · rw [if_neg h3]

/-- Memory that `tlv_read` accepts begins with a TLV. -/
theorem tlvRead_eq_some {p value : Bytes} {remain len : Nat} {type : UInt8}
    (hp : remain ≤ p.length) (h : tlvRead p remain = some (type, value, len)) :
    ∃ data m, p = tlv type data ++ m ∧ data.length = len ∧ len < 65536 ∧ value = data ++ m ∧
      3 + len ≤ remain := by
  unfold tlvRead at h
  split at h
  · cases h
  · next h3 =>
    match p, hp with
    | a :: b :: c :: m, hp =>
      simp only [List.getD_cons_succ, List.getD_cons_zero, List.drop_succ_cons, List.drop_zero] at h
      split at h
      · cases h
      · next hlen =>
        simp only [Option.some.injEq, Prod.mk.injEq] at h
        obtain ⟨rfl, rfl, rfl⟩ := h
        have hb := b.toNat_lt
        have hc := c.toNat_lt
        have hor : b.toNat ||| c.toNat <<< 8 = b.toNat + 256 * c.toNat := by
          rw [Nat.or_comm, ← Nat.shiftLeft_add_eq_or_of_lt (i := 8) hb, Nat.shiftLeft_eq]
          omega
        rw [hor] at hlen ⊢
        have hm : b.toNat + 256 * c.toNat ≤ m.length := by
          simp only [List.length_cons] at hp
          omega
        refine ⟨m.take (b.toNat + 256 * c.toNat), m.drop (b.toNat + 256 * c.toNat), ?_,
          List.length_take_of_le hm, by omega, (List.take_append_drop _ _).symm, by omega⟩
        have hb' : UInt8.ofNat ((b.toNat + 256 * c.toNat) &&& 0xFF) = b := by
          apply UInt8.toNat_inj.mp
          rw [low_byte]
          omega
        have hc' : UInt8.ofNat (((b.toNat + 256 * c.toNat) >>> 8) &&& 0xFF) = c := by
          apply UInt8.toNat_inj.mp
          rw [low_byte, Nat.shiftRight_eq_div_pow]
          omega
        simp only [tlv, List.length_take_of_le hm, hb', hc', List.cons_append, List.nil_append,
          List.take_append_drop]
    | [], hp => simp at hp; omega
    | [_], hp => simp at hp; omega
    | [_, _], hp => simp at hp; omega

end CcRpc
