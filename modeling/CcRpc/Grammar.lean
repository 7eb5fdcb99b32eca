import CcRpc.Gen

/-!
# The language of the generated parsers

A generated parser accepts a byte string that begins with one TLV for each field. On the TLV area
of a struct whose lengths fit their headers this makes decoding undo encoding. A NULL string
emits nothing, which leaves fewer TLVs than fields, and then no parser accepts the area.
-/

namespace CcRpc

/-- `bs` begins with one TLV for each field of the schema, and `rest` follows them. -/
def Begins : Schema → Bytes → Bytes → Prop
  | [], bs, rest => bs = rest
  | t :: ts, bs, rest =>
    ∃ data m, bs = tlv t.code data ++ m ∧ data.length < 65536 ∧ t.Fits data ∧ Begins ts m rest

variable {o : ByteOrder}

theorem parseField_tlv (t : FieldType) {data : Bytes} (hdata : data.length < 65536)
    (hfits : t.Fits data) (m : Bytes) {remain : Nat} (hr : 3 + data.length ≤ remain) :
    parseField o t true (tlv t.code data ++ m) remain = .ok (t.decode o data, 3 + data.length) := by
  have hread := tlvRead_tlv t.code hdata m remain
  rw [if_neg (by omega)] at hread
  have htake : (data ++ m).take data.length = data := List.take_left
  cases t with
  | string =>
    simp only [FieldType.code] at hread
    simp [parseField, tlvReadString, FieldType.code, hread, htake, Except.map, FieldType.decode]
  | u32 =>
    simp only [FieldType.code] at hread
    have h4 : data.length = 4 := hfits
    rw [h4] at htake hread
    simp [parseField, tlvReadU32, FieldType.code, hread, htake, FieldType.decode, h4]
  | i32 =>
    simp only [FieldType.code] at hread
    have h4 : data.length = 4 := hfits
    rw [h4] at htake hread
    simp [parseField, tlvReadI32, FieldType.code, hread, htake, FieldType.decode, h4]
  | bytes =>
    simp only [FieldType.code] at hread
    simp [parseField, tlvReadBytes, FieldType.code, hread, htake, FieldType.decode]

/-- What a field parser accepts begins with a TLV of the field. -/
theorem parseField_eq_ok {t : FieldType} {ok : Bool} {p : Bytes} {remain used : Nat} {v : t.Value}
    (hp : remain ≤ p.length) (h : parseField o t ok p remain = .ok (v, used)) :
    ∃ data m, p = tlv t.code data ++ m ∧ data.length < 65536 ∧ t.Fits data ∧
      v = t.decode o data ∧ used = 3 + data.length ∧ used ≤ remain := by
  cases hread : tlvRead p remain with
  | none =>
    cases t <;> simp [parseField, tlvReadString, tlvReadU32, tlvReadI32, tlvReadBytes, hread,
      Except.map] at h
  | some r =>
    obtain ⟨type, value, len⟩ := r
    obtain ⟨data, m, rfl, rfl, hlt, rfl, hle⟩ := tlvRead_eq_some hp hread
    have htake : (data ++ m).take data.length = data := List.take_left
    cases t with
    | string =>
      simp only [parseField, tlvReadString, hread] at h
      split at h
      · cases h
      · next htype =>
        split at h
        · simp only [Except.map, Except.ok.injEq, Prod.mk.injEq, htake] at h
          obtain ⟨rfl, rfl⟩ := h
          rw [not_not.mp htype]
          exact ⟨data, m, rfl, hlt, trivial, rfl, rfl, hle⟩
        · cases h
    | u32 =>
      simp only [parseField, tlvReadU32, hread] at h
      split at h
      · cases h
      · next htype =>
        simp only [not_or, not_not] at htype
        rw [htype.2] at htake h hle
        simp only [Except.ok.injEq, Prod.mk.injEq, htake] at h
        obtain ⟨rfl, rfl⟩ := h
        rw [htype.1]
        exact ⟨data, m, rfl, hlt, htype.2, rfl, by rw [htype.2], hle⟩
    | i32 =>
      simp only [parseField, tlvReadI32, hread] at h
      split at h
      · cases h
      · next htype =>
        simp only [not_or, not_not] at htype
        rw [htype.2] at htake h hle
        simp only [Except.ok.injEq, Prod.mk.injEq, htake] at h
        obtain ⟨rfl, rfl⟩ := h
        rw [htype.1]
        exact ⟨data, m, rfl, hlt, htype.2, rfl, by rw [htype.2], hle⟩
    | bytes =>
      simp only [parseField, tlvReadBytes, hread] at h
      split at h
      · cases h
      · next htype =>
        split at h
        · simp only [Except.ok.injEq, Prod.mk.injEq, htake] at h
          obtain ⟨rfl, rfl⟩ := h
          rw [not_not.mp htype]
          exact ⟨data, m, rfl, hlt, trivial, rfl, rfl, hle⟩
        · cases h

theorem parseFields_cons {t : FieldType} {ts : Schema} {ok : Nat → Bool} {p : Bytes} {remain : Nat}
    {v : t.Value} {used : Nat} (h : parseField o t (ok 0) p remain = .ok (v, used)) :
    parseFields o (t :: ts) ok p remain =
      (parseFields o ts (fun i => ok (i + 1)) (p.drop used) (remain - used)).map
        fun (acc, vs, rest) => (acc, (v, vs), rest) := by
  simp only [parseFields, h]

theorem parseFields_cons_tlv (t : FieldType) (ts : Schema) {data : Bytes}
    (hdata : data.length < 65536) (hfits : t.Fits data) (m : Bytes) (k : Nat) :
    parseFields o (t :: ts) allOk (tlv t.code data ++ m) (3 + data.length + k) =
      (parseFields o ts allOk m k).map fun (acc, vs, rest) => (acc, (t.decode o data, vs), rest) := by
  have hremain : 3 + data.length ≤ 3 + data.length + k := by omega
  have hf := parseField_tlv (o := o) t hdata hfits m hremain
  rw [parseFields_cons hf, List.drop_left' (tlv_length _ _), Nat.add_sub_cancel_left]
  rfl

theorem parseFields_of_begins {s : Schema} {bs rest : Bytes} (h : Begins s bs rest) (m : Bytes) :
    ∃ v, parseFields o s allOk (bs ++ m) bs.length = some (true, v, rest.length) := by
  induction s generalizing bs with
  | nil =>
    cases h
    exact ⟨(), rfl⟩
  | cons t ts ih =>
    obtain ⟨data, n, rfl, hdata, hfits, hn⟩ := h
    obtain ⟨vs, hvs⟩ := ih hn
    refine ⟨(t.decode o data, vs), ?_⟩
    rw [List.append_assoc, List.length_append, tlv_length,
      parseFields_cons_tlv t ts hdata hfits, hvs]
    rfl

theorem begins_of_parseFields {s : Schema} {ok : Nat → Bool} {p : Bytes} {remain r : Nat}
    {v : Struct s} (hp : remain ≤ p.length)
    (h : parseFields o s ok p remain = some (true, v, r)) :
    ∃ rest, Begins s (p.take remain) rest ∧ rest.length = r := by
  induction s generalizing ok p remain with
  | nil =>
    have hr : some remain = some r :=
      congrArg (Option.map fun x : Bool × Struct [] × Nat => x.2.2) h
    exact ⟨p.take remain, rfl, by rw [List.length_take_of_le hp, Option.some.inj hr]⟩
  | cons t ts ih =>
    cases hf : parseField o t (ok 0) p remain with
    | error e => cases e <;> simp [parseFields, hf] at h
    | ok vu =>
      obtain ⟨x, used⟩ := vu
      rw [parseFields_cons hf, Option.map_eq_some_iff] at h
      obtain ⟨⟨acc, vs, r'⟩, hvs, heq⟩ := h
      simp only [Prod.mk.injEq] at heq
      obtain ⟨rfl, -, rfl⟩ := heq
      obtain ⟨data, m, rfl, hdata, hfits, -, rfl, hle⟩ := parseField_eq_ok hp hf
      rw [List.drop_left' (tlv_length _ _)] at hvs
      have hm : remain - (3 + data.length) ≤ m.length := by
        simp only [List.length_append, tlv_length] at hp
        omega
      obtain ⟨rest, hrest, hlen⟩ := ih hm hvs
      refine ⟨rest, ⟨data, m.take (remain - (3 + data.length)), ?_, hdata, hfits, hrest⟩, hlen⟩
      rw [List.take_append, tlv_length, List.take_of_length_le (by rw [tlv_length]; omega)]

theorem parseStruct_eq_zero_iff {s : Schema} {ok : Nat → Bool} {p : Bytes} {remain : Nat}
    {v : Struct s} :
    parseStruct o s ok p remain = some (0, v) ↔ ∃ r, parseFields o s ok p remain = some (true, v, r) := by
  unfold parseStruct
  rw [Option.map_eq_some_iff]
  constructor
  · rintro ⟨⟨acc, x, r⟩, hx, heq⟩
    cases acc with
    | false => simp at heq
    | true =>
      simp only [if_true, Prod.mk.injEq, true_and] at heq
      exact ⟨r, heq ▸ hx⟩
  · rintro ⟨r, hr⟩
    exact ⟨(true, v, r), hr, rfl⟩

/-- Decoding undoes encoding, and reads exactly the encoding. -/
theorem parseFields_wire {s : Schema} {v : Struct s} (hnull : v.All FieldType.NonNull)
    (hnul : v.All FieldType.NulFree) (hshort : v.All (FieldType.Short o)) (m : Bytes) (k : Nat) :
    parseFields o s allOk (Struct.wire o s v ++ m) ((Struct.wire o s v).length + k) =
      some (true, v, k) := by
  induction s with
  | nil =>
    change some (true, (), 0 + k) = some (true, v, k)
    rw [Nat.zero_add]
  | cons t ts ih =>
    obtain ⟨v, vs⟩ := v
    obtain ⟨data, hdata⟩ := FieldType.payload_isSome (o := o) hnull.1
    have hlt : data.length < 65536 := by
      have := hshort.1 data hdata
      omega
    have hw : t.wire o v = tlv t.code data := by
      unfold FieldType.wire
      rw [hdata]
    have hrest := ih hnull.2 hnul.2 hshort.2
    rw [Struct.wire, hw, List.append_assoc, List.length_append, tlv_length, Nat.add_assoc,
      parseFields_cons_tlv t ts hlt (FieldType.fits_payload hdata), hrest,
      FieldType.decode_payload hnul.1 hdata]
    rfl

/-- TLVs as frames: three header bytes tell the length. -/
def tlvFraming : Framing UInt8 where
  need bs :=
    if 3 ≤ bs.length then some (3 + ((bs.getD 1 0).toNat ||| ((bs.getD 2 0).toNat <<< 8))) else none
  need_pos := by
    intro bs n h
    split at h
    · cases h
      omega
    · cases h
  need_append := by
    intro bs n cs h
    split at h
    · next h3 =>
      rw [if_pos (by simp only [List.length_append]; omega), ← h]
      rw [List.getD_append _ _ _ _ (by omega), List.getD_append _ _ _ _ (by omega)]
    · cases h
  need_take := by
    intro bs n h hn
    split at h
    · next h3 =>
      have hn3 : 3 ≤ n := by
        cases h
        omega
      rw [if_pos (by rw [List.length_take_of_le hn]; exact hn3), ← h]
      have hget : ∀ i, i < n → (bs.take n).getD i 0 = bs.getD i 0 := by
        intro i hi
        simp only [List.getD_eq_getElem?_getD, List.getElem?_take_of_lt hi]
      rw [hget 1 (by omega), hget 2 (by omega)]
    · cases h

theorem isFrame_tlv (type : UInt8) {data : Bytes} (h : data.length < 65536) :
    tlvFraming.IsFrame (tlv type data) := by
  have hlen := lenHeader_value data.length
  rw [Nat.mod_eq_of_lt h] at hlen
  simp only [Framing.IsFrame, tlvFraming, tlv_length]
  rw [if_pos (by omega)]
  simp only [tlv, List.cons_append, List.nil_append, List.getD_cons_succ, List.getD_cons_zero, hlen]

theorem Begins.length_le_frames {s : Schema} {bs rest : Bytes} (h : Begins s bs rest) :
    s.length ≤ (tlvFraming.frames bs).length := by
  induction s generalizing bs with
  | nil => exact Nat.zero_le _
  | cons t ts ih =>
    obtain ⟨data, m, rfl, hdata, -, hm⟩ := h
    rw [Framing.frames_append (isFrame_tlv _ hdata)]
    simpa using ih hm

/-- The area of a struct with a NULL string has fewer TLVs than the struct has fields. -/
theorem frames_wire_length {s : Schema} {v : Struct s} (hshort : v.All (FieldType.Short o)) :
    (tlvFraming.frames (Struct.wire o s v)).length ≤ s.length ∧
      ((tlvFraming.frames (Struct.wire o s v)).length = s.length → v.All FieldType.NonNull) := by
  induction s with
  | nil =>
    have hcut : tlvFraming.cut ([] : Bytes) = none := rfl
    simp [Struct.wire, Framing.frames_of_cut_none hcut, Struct.All]
  | cons t ts ih =>
    obtain ⟨v, vs⟩ := v
    have hts := ih hshort.2
    cases hp : t.payload o v with
    | none =>
      have hw : t.wire o v = [] := by
        unfold FieldType.wire
        rw [hp]
      rw [Struct.wire, hw, List.nil_append, List.length_cons]
      refine ⟨by omega, fun h => ?_⟩
      omega
    | some data =>
      have hw : t.wire o v = tlv t.code data := by
        unfold FieldType.wire
        rw [hp]
      have hdata : data.length < 65536 := by
        have := hshort.1 data hp
        omega
      rw [Struct.wire, hw, Framing.frames_append (isFrame_tlv _ hdata), List.length_cons,
        List.length_cons]
      refine ⟨by omega, fun h => ⟨?_, hts.2 (by omega)⟩⟩
      by_contra hn
      rw [FieldType.payload_eq_none.mpr hn] at hp
      cases hp

theorem accepts_wire_iff {s : Schema} {v : Struct s} (hnul : v.All FieldType.NulFree)
    (hshort : v.All (FieldType.Short o)) (m : Bytes) :
    (∃ v' r, parseFields o s allOk (Struct.wire o s v ++ m) (Struct.wire o s v).length =
      some (true, v', r)) ↔ v.All FieldType.NonNull := by
  constructor
  · intro h
    obtain ⟨v', r, h⟩ := h
    have hle : (Struct.wire o s v).length ≤ (Struct.wire o s v ++ m).length := by simp
    obtain ⟨rest, hrest, -⟩ := begins_of_parseFields hle h
    rw [List.take_left] at hrest
    have hcount := hrest.length_le_frames
    have hframes := frames_wire_length hshort
    exact hframes.2 (by omega)
  · intro hnull
    exact ⟨v, 0, parseFields_wire hnull hnul hshort m 0⟩

/-- Decode undoes encode: on exactly the bytes the emitters wrote, the parser succeeds if and
only if no string is NULL, and then it delivers the struct and has consumed all the bytes. -/
theorem decode_encode {s : Schema} (hs : .i32 ∉ s) {v : Struct s} (hnul : v.All FieldType.NulFree)
    (hshort : v.All (FieldType.Short o)) {buf buf' : Bytes} {off : Nat}
    (hemit : emitFields o s v buf 0 = some (buf', off)) :
    ((∃ v', parseStruct o s allOk buf' off = some (0, v')) ↔ v.All FieldType.NonNull) ∧
      ∀ v' r, parseFields o s allOk buf' off = some (true, v', r) → v' = v ∧ r = 0 := by
  have hroom : (Struct.wire o s v).length ≤ buf.length := by
    by_contra hlt
    rw [emitFields_of_lt hs v (Nat.lt_of_not_le hlt)] at hemit
    cases hemit
  rw [emitFields_of_le hs v hroom] at hemit
  cases hemit
  have hiff := accepts_wire_iff hnul hshort (buf.drop (Struct.wire o s v).length)
  refine ⟨?_, fun v' r h => ?_⟩
  · simp only [parseStruct_eq_zero_iff]
    exact hiff
  · have hnull := hiff.mp ⟨v', r, h⟩
    have hv := parseFields_wire hnull hnul hshort (buf.drop (Struct.wire o s v).length) 0
    rw [Nat.add_zero, h] at hv
    simp only [Option.some.injEq, Prod.mk.injEq, true_and] at hv
    exact hv

/-- A string and a number. -/
theorem decode_encode_small :
    (∃ v', parseStruct .little [.string, .u32] allOk [2, 2, 0, 104, 105, 1, 4, 0, 7, 0, 0, 0] 12 =
        some (0, v')) ∧
      ∀ v' r, parseFields .little [.string, .u32] allOk
          [2, 2, 0, 104, 105, 1, 4, 0, 7, 0, 0, 0] 12 = some (true, v', r) →
        v' = ((some [104, 105] : Option Bytes), (7 : UInt32), ()) ∧ r = 0 := by
  have hemit : emitFields .little [.string, .u32]
      ((some [104, 105] : Option Bytes), (7 : UInt32), ()) (List.replicate 12 0) 0 =
        some ([2, 2, 0, 104, 105, 1, 4, 0, 7, 0, 0, 0], 12) := rfl
  have hnul : Struct.All FieldType.NulFree [.string, .u32]
      ((some [104, 105] : Option Bytes), (7 : UInt32), ()) :=
    ⟨by simp [FieldType.NulFree], trivial, trivial⟩
  have hshort : Struct.All (FieldType.Short .little) [.string, .u32]
      ((some [104, 105] : Option Bytes), (7 : UInt32), ()) :=
    ⟨fun data hd => by cases hd; decide, fun data hd => by cases hd; decide, trivial⟩
  have h := decode_encode (by decide) hnul hshort hemit
  exact ⟨h.1.mpr ⟨by simp [FieldType.NonNull], trivial, trivial⟩, h.2⟩

end CcRpc
