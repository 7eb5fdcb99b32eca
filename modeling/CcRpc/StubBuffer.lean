import CcRpc.Grammar

/-!
# The request buffer of a stub

A stub allocates what `rpc_estimate_param_size_X` adds up and then lets the emitters write into it
without a bound. The two come from different macros. They agree on every field except a NULL
string, for which the estimate counts a header that the emitter does not write.
-/

namespace CcRpc

variable {h : Host}

/-- What the estimate counts for a field, as a mathematical integer. -/
def FieldType.estimate : (t : FieldType) → t.Value → Nat
  | .string, (some s : Option Bytes) => 3 + strlen s
  | .string, (none : Option Bytes) => 3
  | .u32, _ | .i32, _ => 7
  | .bytes, (v : Bytes) => 3 + v.length

def Struct.estimate : (s : Schema) → Struct s → Nat
  | [], _ => 0
  | t :: ts, (v, vs) => t.estimate v + Struct.estimate ts vs

theorem rpcEstimateField_eq (w : WordSize) (t : FieldType) (v : t.Value)
    (hlt : t.estimate v < 2 ^ w.bits) : rpcEstimateField w t v = t.estimate v := by
  cases t with
  | string =>
    cases v with
    | none => exact WordSize.sizeT_of_lt hlt
    | some s => exact WordSize.sizeT_of_lt hlt
  | u32 => rfl
  | i32 => rfl
  | bytes => exact WordSize.sizeT_of_lt hlt

theorem rpcEstimateParamSize_eq (w : WordSize) (s : Schema) (v : Struct s) (sz : Nat)
    (hlt : sz + Struct.estimate s v < 2 ^ w.bits) :
    rpcEstimateParamSize w s v sz = sz + Struct.estimate s v := by
  induction s generalizing sz with
  | nil => rfl
  | cons t ts ih =>
    obtain ⟨v, vs⟩ := v
    simp only [Struct.estimate] at hlt ⊢
    have hfield : rpcEstimateField w t v = t.estimate v := rpcEstimateField_eq w t v (by omega)
    have hsum : w.sizeT (sz + t.estimate v) = sz + t.estimate v := WordSize.sizeT_of_lt (by omega)
    rw [rpcEstimateParamSize, hfield, hsum, ih vs _ (by omega), Nat.add_assoc]

/-- A field is written in what was counted for it, and fills it unless it is a NULL string. -/
theorem FieldType.tlvSize_le_estimate (t : FieldType) (v : t.Value) :
    t.tlvSize v ≤ t.estimate v ∧ (t.tlvSize v = t.estimate v ↔ t.NonNull v) := by
  cases t with
  | string =>
    cases v with
    | none => simp [tlvSize, estimate, NonNull]
    | some s => simp [tlvSize, estimate, NonNull]
  | u32 => simp [tlvSize, estimate, NonNull]
  | i32 => simp [tlvSize, estimate, NonNull]
  | bytes => simp [tlvSize, estimate, NonNull]

theorem Struct.tlvSize_le_estimate (s : Schema) (v : Struct s) :
    Struct.tlvSize s v ≤ Struct.estimate s v ∧
      (Struct.tlvSize s v = Struct.estimate s v ↔ v.All FieldType.NonNull) := by
  induction s with
  | nil => exact ⟨Nat.le_refl 0, iff_of_true rfl trivial⟩
  | cons t ts ih =>
    obtain ⟨v, vs⟩ := v
    obtain ⟨hle, hiff⟩ := t.tlvSize_le_estimate v
    obtain ⟨hles, hiffs⟩ := ih vs
    simp only [tlvSize, estimate, All]
    refine ⟨by omega, ?_⟩
    rw [← hiff, ← hiffs]
    omega

/-- A stub never writes outside the buffer it allocated: the emitters store the TLV area of the
struct at its beginning and leave the rest as `memset` made it. They end inside, at the end exactly
when no string is NULL, and the length sent is the number of bytes they wrote. -/
theorem stub_withinEstimate {s : Schema} (hs : .i32 ∉ s) (v : Struct s)
    (hsum : Struct.estimate s v < 2 ^ h.word.bits) :
    ∃ off, emitFields h.order s v (List.replicate (rpcEstimateParamSize h.word s v 0) 0) 0 =
        some (Struct.wire h.order s v ++
          List.replicate (rpcEstimateParamSize h.word s v 0 - off) 0, off) ∧
      off = (Struct.wire h.order s v).length ∧
      off ≤ rpcEstimateParamSize h.word s v 0 ∧
      (off = rpcEstimateParamSize h.word s v 0 ↔ v.All FieldType.NonNull) ∧
      stubEncode h s v = some (Struct.wire h.order s v) := by
  have hest : rpcEstimateParamSize h.word s v 0 = Struct.estimate s v := by
    rw [rpcEstimateParamSize_eq _ _ _ _ (by omega), Nat.zero_add]
  obtain ⟨hle, hiff⟩ := Struct.tlvSize_le_estimate s v
  have hroom : (Struct.wire h.order s v).length ≤
      (List.replicate (Struct.estimate s v) (0 : UInt8)).length := by
    rw [Struct.wire_length, List.length_replicate]
    exact hle
  have hemit := emitFields_of_le hs v hroom
  rw [hest]
  refine ⟨(Struct.wire h.order s v).length, ?_, rfl, ?_, ?_, ?_⟩
  · rw [hemit, List.drop_replicate]
  · rw [Struct.wire_length]
    exact hle
  · rw [Struct.wire_length]
    exact hiff
  · unfold stubEncode
    simp only [hest, hemit, Option.map_some, List.take_left]

/-- A NULL string and a number: the estimate counts ten bytes and seven are sent. -/
theorem stub_withinEstimate_null :
    ∃ off, emitFields .little [.string, .u32] ((none : Option Bytes), (7 : UInt32), ())
        (List.replicate (rpcEstimateParamSize .w32 [.string, .u32]
          ((none : Option Bytes), (7 : UInt32), ()) 0) 0) 0 =
        some (Struct.wire .little [.string, .u32] ((none : Option Bytes), (7 : UInt32), ()) ++
          List.replicate (rpcEstimateParamSize .w32 [.string, .u32]
            ((none : Option Bytes), (7 : UInt32), ()) 0 - off) 0, off) ∧
      off = (Struct.wire .little [.string, .u32]
        ((none : Option Bytes), (7 : UInt32), ())).length ∧
      off ≤ rpcEstimateParamSize .w32 [.string, .u32] ((none : Option Bytes), (7 : UInt32), ()) 0 ∧
      (off = rpcEstimateParamSize .w32 [.string, .u32]
          ((none : Option Bytes), (7 : UInt32), ()) 0 ↔
        Struct.All FieldType.NonNull [.string, .u32] ((none : Option Bytes), (7 : UInt32), ())) ∧
      stubEncode ⟨.little, .w32⟩ [.string, .u32] ((none : Option Bytes), (7 : UInt32), ()) =
        some (Struct.wire .little [.string, .u32] ((none : Option Bytes), (7 : UInt32), ())) :=
  stub_withinEstimate (h := ⟨.little, .w32⟩) (s := [.string, .u32]) (by decide) _ (by decide)

end CcRpc
