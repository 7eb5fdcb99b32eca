import CcRpc.Tlv

/-!
# Field lists and the structs they generate (`rpc_gen.h`)

A method's `PARAMS` and `RESULTS` are lists of field types. Each list generates a C struct, here
the tuple of its fields' values, so a struct always has exactly the fields of its list.
-/

namespace CcRpc

inductive FieldType where
  | string
  | u32
  | i32
  | bytes
  deriving DecidableEq, Repr

/-- `rpc_string_t`, `rpc_u32_t`, `rpc_i32_t` and `rpc_bytes_t`. A string is NULL or the memory it
points to, without the terminator. -/
abbrev FieldType.Value : FieldType → Type
  | .string => Option Bytes
  | .u32 => UInt32
  | .i32 => Int32
  | .bytes => Bytes

instance : (t : FieldType) → DecidableEq t.Value
  | .string => inferInstanceAs (DecidableEq (Option Bytes))
  | .u32 => inferInstanceAs (DecidableEq UInt32)
  | .i32 => inferInstanceAs (DecidableEq Int32)
  | .bytes => inferInstanceAs (DecidableEq Bytes)

abbrev Schema := List FieldType

abbrev Struct : Schema → Type
  | [] => Unit
  | t :: ts => t.Value × Struct ts

instance instDecidableEqStruct : (s : Schema) → DecidableEq (Struct s)
  | [] => inferInstanceAs (DecidableEq Unit)
  | _ :: ts =>
    have := instDecidableEqStruct ts
    inferInstanceAs (DecidableEq (_ × Struct ts))

/-- The field after `memset(out, 0, sizeof(*out))`. -/
def FieldType.zero : (t : FieldType) → t.Value
  | .string => (none : Option Bytes)
  | .u32 => (0 : UInt32)
  | .i32 => (0 : Int32)
  | .bytes => ([] : Bytes)

def Struct.zero : (s : Schema) → Struct s
  | [] => ()
  | t :: ts => (t.zero, Struct.zero ts)

/-- `P` holds of every field. -/
def Struct.All (P : (t : FieldType) → t.Value → Prop) : (s : Schema) → Struct s → Prop
  | [], _ => True
  | t :: ts, (v, vs) => P t v ∧ Struct.All P ts vs

theorem Struct.All.imp {P Q : (t : FieldType) → t.Value → Prop} (himp : ∀ {t v}, P t v → Q t v) {s : Schema}
    {v : Struct s} (hv : v.All P) : v.All Q := by
  induction s with
  | nil => trivial
  | cons t ts ih => exact ⟨himp hv.1, ih hv.2⟩

/-- A string field that is not NULL; the other types have no NULL. -/
def FieldType.NonNull : (t : FieldType) → t.Value → Prop
  | .string, v => v ≠ (none : Option Bytes)
  | .u32, _ | .i32, _ | .bytes, _ => True

/-- A string field that is NULL or holds no NUL. -/
def FieldType.NulFree : (t : FieldType) → t.Value → Prop
  | .string, (some s : Option Bytes) => (0 : UInt8) ∉ s
  | .string, (none : Option Bytes) => True
  | .u32, _ | .i32, _ | .bytes, _ => True

/-- `sizeof` of a field's C type; a `rpc_bytes_t` is a pointer and a `size_t`. -/
def FieldType.sizeof (w : WordSize) : FieldType → Nat
  | .string => w.bytes
  | .u32 | .i32 => 4
  | .bytes => 2 * w.bytes

def FieldType.alignof (w : WordSize) : FieldType → Nat
  | .string | .bytes => w.bytes
  | .u32 | .i32 => 4

/-- `off` rounded up to a multiple of `a`. -/
def alignUp (a off : Nat) : Nat := (off + a - 1) / a * a

/-- The offset after the fields of `s`, laid out from `off` with their natural alignment. -/
def Schema.layoutEnd (w : WordSize) : Schema → Nat → Nat
  | [], off => off
  | t :: ts, off => Schema.layoutEnd w ts (alignUp (t.alignof w) off + t.sizeof w)

/-- `sizeof(struct rpc_param_X)`. -/
def Schema.sizeof (w : WordSize) (s : Schema) : Nat :=
  alignUp (s.foldl (fun a t => max a (t.alignof w)) 1) (s.layoutEnd w 0)

theorem le_alignUp {a : Nat} (ha : 0 < a) (off : Nat) : off ≤ alignUp a off := by
  have hdiv := Nat.div_add_mod (off + a - 1) a
  have hmod := Nat.mod_lt (off + a - 1) ha
  have hcomm : (off + a - 1) / a * a = a * ((off + a - 1) / a) := Nat.mul_comm _ _
  unfold alignUp
  omega

theorem FieldType.alignof_pos (w : WordSize) (t : FieldType) : 0 < t.alignof w := by
  cases t <;> cases w <;> decide

theorem FieldType.four_le_sizeof (w : WordSize) (t : FieldType) : 4 ≤ t.sizeof w := by
  cases t <;> cases w <;> decide

theorem Schema.le_layoutEnd (w : WordSize) (s : Schema) (off : Nat) :
    off + 4 * s.length ≤ s.layoutEnd w off := by
  induction s generalizing off with
  | nil => simp [layoutEnd]
  | cons t ts ih =>
    have hrest := ih (alignUp (t.alignof w) off + t.sizeof w)
    have hup := le_alignUp (t.alignof_pos w) off
    have hsize := t.four_le_sizeof w
    simp only [layoutEnd, List.length_cons]
    omega

private theorem one_le_foldl_max (w : WordSize) (s : Schema) (a : Nat) (ha : 1 ≤ a) :
    1 ≤ s.foldl (fun a t => max a (t.alignof w)) a := by
  induction s generalizing a with
  | nil => exact ha
  | cons t ts ih => exact ih _ (le_max_of_le_left ha)

theorem Schema.four_mul_length_le_sizeof (w : WordSize) (s : Schema) :
    4 * s.length ≤ s.sizeof w := by
  have hend := s.le_layoutEnd w 0
  have hup := le_alignUp (one_le_foldl_max w s 1 (Nat.le_refl 1)) (s.layoutEnd w 0)
  unfold sizeof
  omega

/-- The type byte of a field's TLV. -/
def FieldType.code : FieldType → UInt8
  | .string => 0x02
  | .u32 | .i32 => 0x01
  | .bytes => 0x03

/-- The data of a field's TLV; a NULL string has none. -/
def FieldType.payload (o : ByteOrder) : (t : FieldType) → t.Value → Option Bytes
  | .string, (v : Option Bytes) => v.map cstr
  | .u32, (v : UInt32) => some (o.store32 v)
  | .i32, (v : Int32) => some (o.store32 v.toUInt32)
  | .bytes, (v : Bytes) => some v

/-- The bytes a field contributes to the TLV area. -/
def FieldType.wire (o : ByteOrder) (t : FieldType) (v : t.Value) : Bytes :=
  match t.payload o v with
  | none => []
  | some data => tlv t.code data

/-- The TLV area of a struct. -/
def Struct.wire (o : ByteOrder) : (s : Schema) → Struct s → Bytes
  | [], _ => []
  | t :: ts, (v, vs) => t.wire o v ++ Struct.wire o ts vs

/-- A string or bytes field of at most 65535 bytes, the most its length header can say. -/
def FieldType.Short (o : ByteOrder) (t : FieldType) (v : t.Value) : Prop :=
  ∀ data, t.payload o v = some data → data.length ≤ 65535

/-- TLV data a parser takes for a field of this type. -/
def FieldType.Fits : FieldType → Bytes → Prop
  | .string, _ | .bytes, _ => True
  | .u32, data | .i32, data => data.length = 4

/-- The value a parser stores for TLV data. -/
def FieldType.decode (o : ByteOrder) : (t : FieldType) → Bytes → t.Value
  | .string, data => (some data : Option Bytes)
  | .u32, data => (o.load32 data : UInt32)
  | .i32, data => ((o.load32 data).toInt32 : Int32)
  | .bytes, data => (data : Bytes)

/-- The bytes a field takes in the TLV area, from the lengths alone. -/
def FieldType.tlvSize : (t : FieldType) → t.Value → Nat
  | .string, (some s : Option Bytes) => 3 + strlen s
  | .string, (none : Option Bytes) => 0
  | .u32, _ | .i32, _ => 7
  | .bytes, (v : Bytes) => 3 + v.length

def Struct.tlvSize : (s : Schema) → Struct s → Nat
  | [], _ => 0
  | t :: ts, (v, vs) => t.tlvSize v + Struct.tlvSize ts vs

@[simp] theorem FieldType.wire_length (o : ByteOrder) (t : FieldType) (v : t.Value) :
    (t.wire o v).length = t.tlvSize v := by
  cases t with
  | string =>
    cases v with
    | none => rfl
    | some s => exact tlv_length _ _
  | u32 => simp [wire, payload, tlvSize]
  | i32 => simp [wire, payload, tlvSize]
  | bytes => exact tlv_length _ _

@[simp] theorem Struct.wire_length (o : ByteOrder) (s : Schema) (v : Struct s) :
    (Struct.wire o s v).length = Struct.tlvSize s v := by
  induction s with
  | nil => rfl
  | cons t ts ih =>
    obtain ⟨v, vs⟩ := v
    simp [Struct.wire, Struct.tlvSize, ih]

theorem FieldType.payload_isSome {o : ByteOrder} {t : FieldType} {v : t.Value}
    (h : t.NonNull v) : ∃ data, t.payload o v = some data := by
  cases t with
  | string =>
    cases v with
    | none => exact absurd rfl h
    | some s => exact ⟨cstr s, rfl⟩
  | u32 => exact ⟨_, rfl⟩
  | i32 => exact ⟨_, rfl⟩
  | bytes => exact ⟨_, rfl⟩

theorem FieldType.payload_eq_none {o : ByteOrder} {t : FieldType} {v : t.Value} :
    t.payload o v = none ↔ ¬ t.NonNull v := by
  cases t with
  | string =>
    cases v with
    | none => exact ⟨fun _ h => h rfl, fun _ => rfl⟩
    | some s => simp [payload, NonNull]
  | u32 => simp [payload, NonNull]
  | i32 => simp [payload, NonNull]
  | bytes => simp [payload, NonNull]

theorem FieldType.fits_payload {o : ByteOrder} {t : FieldType} {v : t.Value} {data : Bytes}
    (h : t.payload o v = some data) : t.Fits data := by
  cases t with
  | string => trivial
  | u32 =>
    cases h
    exact o.store32_length v
  | i32 =>
    cases h
    exact o.store32_length _
  | bytes => trivial

/-- Decoding a field's own data gives the field back, up to what follows a NUL in a string. -/
theorem FieldType.decode_payload {o : ByteOrder} {t : FieldType} {v : t.Value} {data : Bytes}
    (hv : t.NulFree v) (h : t.payload o v = some data) : t.decode o data = v := by
  cases t with
  | string =>
    cases v with
    | none => cases h
    | some s =>
      cases h
      exact congrArg some (cstr_of_not_mem hv)
  | u32 =>
    cases h
    exact o.load32_store32 v
  | i32 =>
    cases h
    simp only [decode, ByteOrder.load32_store32]
    rfl
  | bytes =>
    cases h
    rfl

theorem FieldType.decode_injective {o : ByteOrder} {t : FieldType} {a b : Bytes} (ha : t.Fits a)
    (hb : t.Fits b) (h : t.decode o a = t.decode o b) : a = b := by
  cases t with
  | string => exact Option.some.inj h
  | u32 =>
    have h' : o.load32 a = o.load32 b := h
    have h'' := congrArg o.store32 h'
    rwa [o.store32_load32 ha, o.store32_load32 hb] at h''
  | i32 =>
    have h' : o.load32 a = o.load32 b := by
      have hu := congrArg Int32.toUInt32 h
      simpa [decode] using hu
    have h'' := congrArg o.store32 h'
    rwa [o.store32_load32 ha, o.store32_load32 hb] at h''
  | bytes => exact h

end CcRpc
