import CcRpc.Schema

/-!
# Generated code (`rpc_gen.c`)

The macros expand one statement per field, in order. A list of fields is therefore expanded by
recursion on the schema, and every generated function is the expansion for one schema.
-/

namespace CcRpc

variable (o : ByteOrder)

/-- `RPC_EMIT_FIELD_*`: the buffer and the offset after the field. `tlv_write_i32`, which the
`i32` macro calls, is defined nowhere, so a schema with an `i32` has no emitter. -/
def emitField : (t : FieldType) → t.Value → Bytes → Nat → Option (Bytes × Nat)
  | .string, (some s : Option Bytes), buf, off =>
    (tlvWriteString buf off s).map fun (buf, used) => (buf, off + used)
  | .string, (none : Option Bytes), buf, off => some (buf, off)
  | .u32, v, buf, off => (tlvWriteU32 o buf off v).map fun (buf, used) => (buf, off + used)
  | .i32, _, _, _ => none
  | .bytes, v, buf, off => (tlvWriteBytes buf off v).map fun (buf, used) => (buf, off + used)

/-- The `PARAM_LIST` or `RESULT_LIST` of an emitting function. -/
def emitFields : (s : Schema) → Struct s → Bytes → Nat → Option (Bytes × Nat)
  | [], _, buf, off => some (buf, off)
  | t :: ts, (v, vs), buf, off =>
    (emitField o t v buf off).bind fun (buf, off) => emitFields ts vs buf off

/-- `rpc_estimate_field_*`. -/
def rpcEstimateField (w : WordSize) : (t : FieldType) → t.Value → Nat
  | .string, (v : Option Bytes) => w.sizeT (1 + 2 + (match v with | some s => strlen s | none => 0))
  | .u32, _ | .i32, _ => 1 + 2 + 4
  | .bytes, (v : Bytes) => w.sizeT (1 + 2 + v.length)

/-- `rpc_estimate_param_size_X`, with `sz` the sum so far. -/
def rpcEstimateParamSize (w : WordSize) : (s : Schema) → Struct s → Nat → Nat
  | [], _, sz => sz
  | t :: ts, (v, vs), sz => rpcEstimateParamSize w ts vs (w.sizeT (sz + rpcEstimateField w t v))

/-- The first half of `rpc_call_X`: `tlvbuf[0..off)`, which it passes to `rpc_call_with_tlv`. -/
def stubEncode (h : Host) (s : Schema) (v : Struct s) : Option Bytes :=
  let tlvSize := rpcEstimateParamSize h.word s v 0
  let tlvbuf := List.replicate tlvSize 0
  (emitFields h.order s v tlvbuf 0).map fun (buf, off) => buf.take off

/-- `encode_result_X`: the return value, the buffer and `*out_len`. -/
def encodeResult (s : Schema) (r : Struct s) (buf : Bytes) (outLen : Nat) :
    Option (Int × Bytes × Nat) :=
  (if 0 < outLen then memcpy buf 0 (List.replicate outLen 0) else some buf).bind fun buf =>
    (emitFields o s r buf 0).map fun (buf, off) => (0, buf, off)

/-- `PARSE_FIELD_*`: the value and `used`. -/
def parseField (t : FieldType) (ok : Bool) (p : Bytes) (remain : Nat) :
    Except ReadError (t.Value × Nat) :=
  match t with
  | .string => (tlvReadString ok p remain).map fun (s, used) => ((some s : Option Bytes), used)
  | .u32 => tlvReadU32 o p remain
  | .i32 => tlvReadI32 o p remain
  | .bytes => tlvReadBytes ok p remain

/-- The fields of `rpc_param_parse_X` and `rpc_result_parse_X`: whether all were read, the struct
and `remain`. `ok i` is the outcome of the allocation for field `i`; `none` is a write through
NULL. A rejected field ends the function with it and the later fields still zero. -/
def parseFields : (s : Schema) → (ok : Nat → Bool) → Bytes → Nat → Option (Bool × Struct s × Nat)
  | [], _, _, remain => some (true, (), remain)
  | t :: ts, ok, p, remain =>
    match parseField o t (ok 0) p remain with
    | .error .nullWrite => none
    | .error .rejected => some (false, (t.zero, Struct.zero ts), remain)
    | .ok (v, used) =>
      (parseFields ts (fun i => ok (i + 1)) (p.drop used) (remain - used)).map
        fun (acc, vs, rest) => (acc, (v, vs), rest)

/-- `rpc_param_parse_X` and `rpc_result_parse_X`, which have the same expansion. -/
def parseStruct (s : Schema) (ok : Nat → Bool) (tlv : Bytes) (len : Nat) :
    Option (Int × Struct s) :=
  (parseFields o s ok tlv len).map fun (acc, out, _) => (if acc then 0 else -1, out)

/-- Every `heap_malloc` of a parser succeeds. -/
def allOk : Nat → Bool := fun _ => true

variable {o}

private theorem map_memcpy_off (buf data : Bytes) (off k : Nat) (hk : k = data.length) :
    ((memcpy buf off data).map fun b => (b, k)).map (fun x : Bytes × Nat => (x.1, off + x.2)) =
      (memcpy buf off data).map fun b => (b, off + data.length) := by
  subst hk
  rw [Option.map_map]
  rfl

theorem emitField_eq {t : FieldType} (ht : t ≠ .i32) (v : t.Value) {buf : Bytes} {off : Nat}
    (hoff : off ≤ buf.length) :
    emitField o t v buf off =
      (memcpy buf off (t.wire o v)).map fun b => (b, off + (t.wire o v).length) := by
  cases t with
  | string =>
    cases v with
    | none =>
      change some (buf, off) = (memcpy buf off []).map fun b => (b, off + 0)
      rw [memcpy_nil hoff]
      rfl
    | some s =>
      change (tlvWriteString buf off s).map _ = (memcpy buf off (tlv 0x02 (cstr s))).map _
      rw [tlvWriteString_eq]
      exact map_memcpy_off buf _ off _ (tlv_length 0x02 (cstr s)).symm
  | u32 =>
    change (tlvWriteU32 o buf off v).map _ = (memcpy buf off (tlv 0x01 (o.store32 v))).map _
    rw [tlvWriteU32_eq]
    exact map_memcpy_off buf _ off _ (tlv_length 0x01 (o.store32 v)).symm
  | i32 => exact absurd rfl ht
  | bytes =>
    change (tlvWriteBytes buf off v).map _ = (memcpy buf off (tlv 0x03 v)).map _
    rw [tlvWriteBytes_eq]
    exact map_memcpy_off buf _ off _ (tlv_length 0x03 v).symm

/-- The emitters together make one store: the TLV area of the struct at `off`. -/
theorem emitFields_eq {s : Schema} (hs : .i32 ∉ s) (v : Struct s) {buf : Bytes} {off : Nat}
    (hoff : off ≤ buf.length) :
    emitFields o s v buf off =
      (memcpy buf off (Struct.wire o s v)).map fun b => (b, off + (Struct.wire o s v).length) := by
  induction s generalizing buf off with
  | nil =>
    change some (buf, off) = (memcpy buf off []).map fun b => (b, off + 0)
    rw [memcpy_nil hoff]
    rfl
  | cons t ts ih =>
    obtain ⟨v, vs⟩ := v
    have ht : t ≠ .i32 := fun h => hs (h ▸ List.mem_cons_self)
    have hts : .i32 ∉ ts := fun h => hs (List.mem_cons_of_mem _ h)
    rw [emitFields, emitField_eq ht v hoff, Struct.wire, ← memcpy_bind_memcpy, Option.bind_map]
    cases hm : memcpy buf off (t.wire o v) with
    | none => rfl
    | some b =>
      have hb : off + (t.wire o v).length ≤ b.length := by
        rw [memcpy_length hm]
        unfold memcpy at hm
        split at hm
        · assumption
        · cases hm
      change emitFields o ts vs b (off + (t.wire o v).length) = _
      rw [ih hts vs hb, Option.bind_some]
      simp only [List.length_append, Nat.add_assoc]

theorem emitFields_of_le {s : Schema} (hs : .i32 ∉ s) (v : Struct s) {buf : Bytes}
    (h : (Struct.wire o s v).length ≤ buf.length) :
    emitFields o s v buf 0 =
      some (Struct.wire o s v ++ buf.drop (Struct.wire o s v).length,
        (Struct.wire o s v).length) := by
  rw [emitFields_eq hs v (Nat.zero_le _), memcpy_eq_some (by omega)]
  simp

theorem emitFields_of_lt {s : Schema} (hs : .i32 ∉ s) (v : Struct s) {buf : Bytes}
    (h : buf.length < (Struct.wire o s v).length) : emitFields o s v buf 0 = none := by
  rw [emitFields_eq hs v (Nat.zero_le _), memcpy_eq_none (by omega)]
  rfl

/-- The stub passes the TLV area of the struct whenever it gets through its own stores. -/
theorem stubEncode_eq_some {h : Host} {s : Schema} (hs : .i32 ∉ s) {v : Struct s} {tlvArea : Bytes}
    (henc : stubEncode h s v = some tlvArea) : tlvArea = Struct.wire h.order s v := by
  unfold stubEncode at henc
  by_cases hle : (Struct.wire h.order s v).length ≤
      (List.replicate (rpcEstimateParamSize h.word s v 0) (0 : UInt8)).length
  · simp only [emitFields_of_le hs v hle, Option.map_some, List.take_left, Option.some.injEq] at henc
    exact henc.symm
  · simp only [emitFields_of_lt hs v (Nat.lt_of_not_le hle), Option.map_none] at henc
    cases henc

private theorem tlvSize_le_estimate (w : WordSize) (t : FieldType) (v : t.Value)
    (hlt : 3 + t.tlvSize v < 2 ^ w.bits) :
    t.tlvSize v ≤ rpcEstimateField w t v ∧ rpcEstimateField w t v ≤ 3 + t.tlvSize v := by
  cases t with
  | string =>
    cases v with
    | none =>
      have hs : 3 + 0 < 2 ^ w.bits := hlt
      have h3 : w.sizeT (1 + 2 + 0) = 3 := WordSize.sizeT_of_lt (by omega)
      exact ⟨Nat.zero_le _, Nat.le_of_eq h3⟩
    | some s =>
      have hs : 3 + (3 + strlen s) < 2 ^ w.bits := hlt
      have h3 : w.sizeT (1 + 2 + strlen s) = 3 + strlen s := WordSize.sizeT_of_lt (by omega)
      change 3 + strlen s ≤ w.sizeT (1 + 2 + strlen s) ∧
        w.sizeT (1 + 2 + strlen s) ≤ 3 + (3 + strlen s)
      omega
  | u32 => exact ⟨Nat.le_refl 7, Nat.le_add_left 7 3⟩
  | i32 => exact ⟨Nat.le_refl 7, Nat.le_add_left 7 3⟩
  | bytes =>
    have hs : 3 + (3 + v.length) < 2 ^ w.bits := hlt
    have h3 : w.sizeT (1 + 2 + v.length) = 3 + v.length := WordSize.sizeT_of_lt (by omega)
    change 3 + v.length ≤ w.sizeT (1 + 2 + v.length) ∧
      w.sizeT (1 + 2 + v.length) ≤ 3 + (3 + v.length)
    omega

/-- The estimate is at least what the emitters write, while its sum does not wrap. -/
theorem tlvSize_le_rpcEstimateParamSize (w : WordSize) (s : Schema) (v : Struct s) (sz : Nat)
    (hlt : sz + 3 * s.length + Struct.tlvSize s v < 2 ^ w.bits) :
    sz + Struct.tlvSize s v ≤ rpcEstimateParamSize w s v sz := by
  induction s generalizing sz with
  | nil => exact Nat.le_refl _
  | cons t ts ih =>
    obtain ⟨v, vs⟩ := v
    simp only [Struct.tlvSize, List.length_cons] at hlt ⊢
    obtain ⟨hge, hle⟩ := tlvSize_le_estimate w t v (by omega)
    have hsum : w.sizeT (sz + rpcEstimateField w t v) = sz + rpcEstimateField w t v :=
      WordSize.sizeT_of_lt (by omega)
    have hrest := ih vs (sz + rpcEstimateField w t v) (by omega)
    rw [rpcEstimateParamSize, hsum]
    omega

theorem stubEncode_eq {h : Host} {s : Schema} (hs : .i32 ∉ s) {v : Struct s}
    (hlt : 3 * s.length + Struct.tlvSize s v < 2 ^ h.word.bits) :
    stubEncode h s v = some (Struct.wire h.order s v) := by
  have hest := tlvSize_le_rpcEstimateParamSize h.word s v 0 (by omega)
  have hroom : (Struct.wire h.order s v).length ≤
      (List.replicate (rpcEstimateParamSize h.word s v 0) (0 : UInt8)).length := by
    rw [Struct.wire_length, List.length_replicate]
    omega
  unfold stubEncode
  simp only [emitFields_of_le hs v hroom, Option.map_some, List.take_left]

end CcRpc
