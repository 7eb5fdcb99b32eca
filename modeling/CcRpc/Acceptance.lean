import CcRpc.Grammar
import CcRpc.FieldBuffers

/-!
# What a generated parser accepts

A parser is given a pointer and a length, and the memory after the input is not its own. Here its
loads are explicit: a load at or beyond `len` has no value, and neither has a `remain` below zero.
A parser that always has a value therefore stays inside its input, whatever the bytes are.
-/

namespace CcRpc

/-- `buf[off]`, for an input of `len` bytes at `buf`. -/
def loadByte (buf : Bytes) (len off : Nat) : Option UInt8 :=
  if off < len then buf[off]? else none

/-- The source bytes of `memcpy(_, &buf[off], n)`. -/
def loadBytes (buf : Bytes) (len off n : Nat) : Option Bytes :=
  if off + n ≤ len ∧ off + n ≤ buf.length then some ((buf.drop off).take n) else none

/-- `tlv_read` at offset `off`: the type, the offset of the value and its length. -/
def tlvReadLoads (buf : Bytes) (len off remain : Nat) : Option (Option (UInt8 × Nat × Nat)) :=
  if remain < 3 then some none
  else do
    let type ← loadByte buf len off
    let lo ← loadByte buf len (off + 1)
    let hi ← loadByte buf len (off + 2)
    let n := lo.toNat ||| (hi.toNat <<< 8)
    return if remain < 3 + n then none else some (type, off + 3, n)

/-- The readers differ in the type they ask for and in the lengths they take. -/
def tlvReadDataLoads (code : UInt8) (takes : Nat → Bool) (buf : Bytes) (len off remain : Nat) :
    Option (Option (Bytes × Nat)) := do
  match ← tlvReadLoads buf len off remain with
  | none => return none
  | some (type, value, n) =>
    if type ≠ code ∨ takes n = false then return none
    else
      let data ← loadBytes buf len value n
      return some (data, 3 + n)

/-- `PARSE_FIELD_*`, all allocations succeeding. -/
def parseFieldLoads (o : ByteOrder) (t : FieldType) (buf : Bytes) (len off remain : Nat) :
    Option (Option (t.Value × Nat)) :=
  match t with
  | .string =>
    (tlvReadDataLoads 0x02 (fun _ => true) buf len off remain).map
      (Option.map fun (data, used) => ((some data : Option Bytes), used))
  | .u32 =>
    (tlvReadDataLoads 0x01 (fun n => n == 4) buf len off remain).map
      (Option.map fun (data, used) => (o.load32 data, used))
  | .i32 =>
    (tlvReadDataLoads 0x01 (fun n => n == 4) buf len off remain).map
      (Option.map fun (data, used) => ((o.load32 data).toInt32, used))
  | .bytes => tlvReadDataLoads 0x03 (fun _ => true) buf len off remain

/-- The fields from offset `off` on. `remain -= used` has no value when it would wrap. -/
def parseFieldsLoads (o : ByteOrder) (buf : Bytes) (len : Nat) :
    (s : Schema) → (off remain : Nat) → Option (Bool × Struct s × Nat)
  | [], _, remain => some (true, (), remain)
  | t :: ts, off, remain =>
    match parseFieldLoads o t buf len off remain with
    | none => none
    | some none => some (false, (t.zero, Struct.zero ts), remain)
    | some (some (v, used)) =>
      if used ≤ remain then
        (parseFieldsLoads o buf len ts (off + used) (remain - used)).map
          fun (acc, vs, rest) => (acc, (v, vs), rest)
      else none

/-- `rpc_param_parse_X` and `rpc_result_parse_X` with their loads. -/
def parseStructLoads (o : ByteOrder) (s : Schema) (buf : Bytes) (len : Nat) :
    Option (Int × Struct s) :=
  (parseFieldsLoads o buf len s 0 len).map fun (acc, out, _) => (if acc then 0 else -1, out)

variable {o : ByteOrder} {buf : Bytes} {len off remain : Nat}

theorem loadByte_eq (hlen : len ≤ buf.length) (h : off < len) :
    loadByte buf len off = some (buf.getD off 0) := by
  have hoff : off < buf.length := by omega
  rw [loadByte, if_pos h, List.getD_eq_getElem?_getD, List.getElem?_eq_getElem hoff]
  rfl

theorem loadBytes_eq {n : Nat} (hlen : len ≤ buf.length) (h : off + n ≤ len) :
    loadBytes buf len off n = some ((buf.drop off).take n) :=
  if_pos ⟨h, by omega⟩

theorem tlvReadLoads_eq (hlen : len ≤ buf.length) (h : off + remain = len) :
    tlvReadLoads buf len off remain =
      some ((tlvRead (buf.drop off) remain).map fun (type, _, n) => (type, off + 3, n)) := by
  unfold tlvReadLoads tlvRead
  by_cases h3 : remain < 3
  · rw [if_pos h3, if_pos h3]
    rfl
  · rw [if_neg h3, if_neg h3, loadByte_eq hlen (by omega), loadByte_eq hlen (by omega),
      loadByte_eq hlen (by omega)]
    have hget : ∀ i, (buf.drop off).getD i 0 = buf.getD (off + i) 0 := by
      intro i
      simp [List.getD_eq_getElem?_getD]
    simp only [hget, Nat.add_zero, Option.bind_eq_bind, Option.bind_some]
    split <;> rfl

theorem tlvReadDataLoads_eq (code : UInt8) (takes : Nat → Bool) (hlen : len ≤ buf.length)
    (h : off + remain = len) :
    tlvReadDataLoads code takes buf len off remain =
      some (match tlvRead (buf.drop off) remain with
        | none => none
        | some (type, value, n) =>
          if type ≠ code ∨ takes n = false then none else some (value.take n, 3 + n)) := by
  unfold tlvReadDataLoads
  rw [tlvReadLoads_eq hlen h]
  cases hread : tlvRead (buf.drop off) remain with
  | none => rfl
  | some r =>
    obtain ⟨type, value, n⟩ := r
    have hp : remain ≤ (buf.drop off).length := by
      rw [List.length_drop]
      omega
    obtain ⟨data, m, hdrop, hdata, -, hvalue, hle⟩ := tlvRead_eq_some hp hread
    simp only [Option.map_some, Option.bind_eq_bind, Option.bind_some]
    by_cases hrej : type ≠ code ∨ takes n = false
    · rw [if_pos hrej, if_pos hrej]
      rfl
    · have hload : loadBytes buf len (off + 3) n = some (value.take n) := by
        have hvalue' : value = buf.drop (off + 3) := by
          have hlist : ([type, UInt8.ofNat (data.length &&& 0xFF),
              UInt8.ofNat ((data.length >>> 8) &&& 0xFF)] : Bytes).length = 3 := rfl
          rw [← List.drop_drop, hdrop, tlv, List.append_assoc, List.drop_left' hlist, hvalue]
        rw [loadBytes_eq hlen (by omega), hvalue']
      rw [if_neg hrej, if_neg hrej, hload]
      rfl

theorem parseFieldLoads_eq (t : FieldType) (hlen : len ≤ buf.length) (h : off + remain = len) :
    parseFieldLoads o t buf len off remain =
      some (parseField o t true (buf.drop off) remain).toOption := by
  cases t with
  | string =>
    rw [parseFieldLoads, tlvReadDataLoads_eq _ _ hlen h, parseField, tlvReadString]
    cases tlvRead (buf.drop off) remain with
    | none => rfl
    | some r =>
      by_cases hc : r.1 = 0x02 <;> simp [hc, Except.map, Except.toOption]
  | u32 =>
    rw [parseFieldLoads, tlvReadDataLoads_eq _ _ hlen h, parseField, tlvReadU32]
    cases tlvRead (buf.drop off) remain with
    | none => rfl
    | some r =>
      by_cases hc : r.1 = 0x01 <;> by_cases h4 : r.2.2 = 4 <;> simp [hc, h4, Except.toOption]
  | i32 =>
    rw [parseFieldLoads, tlvReadDataLoads_eq _ _ hlen h, parseField, tlvReadI32]
    cases tlvRead (buf.drop off) remain with
    | none => rfl
    | some r =>
      by_cases hc : r.1 = 0x01 <;> by_cases h4 : r.2.2 = 4 <;> simp [hc, h4, Except.toOption]
  | bytes =>
    rw [parseFieldLoads, tlvReadDataLoads_eq _ _ hlen h, parseField, tlvReadBytes]
    cases tlvRead (buf.drop off) remain with
    | none => rfl
    | some r =>
      by_cases hc : r.1 = 0x03 <;> simp [hc, Except.toOption]

theorem parseFields_rejected {t : FieldType} {ts : Schema} {p : Bytes} {remain : Nat}
    (hf : parseField o t true p remain = .error .rejected) :
    parseFields o (t :: ts) allOk p remain = some (false, (t.zero, Struct.zero ts), remain) := by
  have hfirst : parseField o t (allOk 0) p remain = .error .rejected := hf
  simp only [parseFields, hfirst]

/-- On an input that is all there no load leaves it and `remain` does not wrap. -/
theorem parseFieldsLoads_eq (s : Schema) (hlen : len ≤ buf.length) (h : off + remain = len) :
    parseFieldsLoads o buf len s off remain = parseFields o s allOk (buf.drop off) remain := by
  induction s generalizing off remain with
  | nil => rfl
  | cons t ts ih =>
    have hp : remain ≤ (buf.drop off).length := by
      rw [List.length_drop]
      omega
    rw [parseFieldsLoads, parseFieldLoads_eq t hlen h]
    cases hf : parseField o t true (buf.drop off) remain with
    | error e =>
      cases e with
      | rejected =>
        rw [parseFields_rejected hf]
        rfl
      | nullWrite => exact absurd hf (parseField_true t _ _)
    | ok vu =>
      obtain ⟨v, used⟩ := vu
      obtain ⟨_, _, _, _, _, _, _, hused⟩ := parseField_eq_ok hp hf
      have hfirst : parseField o t (allOk 0) (buf.drop off) remain = .ok (v, used) := hf
      rw [parseFields_cons hfirst]
      simp only [Except.toOption, if_pos hused, List.drop_drop]
      rw [ih (by omega)]
      rfl

theorem parseStructLoads_eq (s : Schema) (hlen : len ≤ buf.length) :
    parseStructLoads o s buf len = parseStruct o s allOk buf len := by
  unfold parseStructLoads parseStruct
  rw [parseFieldsLoads_eq s hlen (Nat.zero_add len), List.drop_zero]

/-- `bs` begins with a TLV that a field of this type takes. -/
def FieldType.Begins (t : FieldType) (bs : Bytes) : Prop :=
  ∃ data m, bs = tlv t.code data ++ m ∧ data.length < 65536 ∧ t.Fits data

/-- `bs` begins with one TLV for each field, the payloads are the values of the struct, and `rest`
follows them. -/
def Delivers (o : ByteOrder) : (s : Schema) → Bytes → Struct s → Bytes → Prop
  | [], bs, _, rest => bs = rest
  | t :: ts, bs, (v, vs), rest =>
    ∃ data m, bs = tlv t.code data ++ m ∧ data.length < 65536 ∧ t.Fits data ∧
      v = t.decode o data ∧ Delivers o ts m vs rest

/-- Some field has no TLV where it should be. The fields before it hold their payloads; it and the
fields after it are zero. -/
def Stops (o : ByteOrder) : (s : Schema) → Bytes → Struct s → Prop
  | [], _, _ => False
  | t :: ts, bs, (v, vs) =>
    (¬ t.Begins bs ∧ v = t.zero ∧ vs = Struct.zero ts) ∨
      ∃ data m, bs = tlv t.code data ++ m ∧ data.length < 65536 ∧ t.Fits data ∧
        v = t.decode o data ∧ Stops o ts m vs

theorem Delivers.begins {s : Schema} {bs rest : Bytes} {v : Struct s}
    (h : Delivers o s bs v rest) : Begins s bs rest := by
  induction s generalizing bs with
  | nil => exact h
  | cons t ts ih =>
    obtain ⟨data, m, hbs, hdata, hfits, -, hm⟩ := h
    exact ⟨data, m, hbs, hdata, hfits, ih hm⟩

theorem Delivers.suffix {s : Schema} {bs rest : Bytes} {v : Struct s}
    (h : Delivers o s bs v rest) : ∃ consumed, bs = consumed ++ rest := by
  induction s generalizing bs with
  | nil => exact ⟨[], h⟩
  | cons t ts ih =>
    obtain ⟨v, vs⟩ := v
    obtain ⟨data, m, rfl, -, -, -, hm⟩ := h
    obtain ⟨consumed, rfl⟩ := ih hm
    exact ⟨tlv t.code data ++ consumed, (List.append_assoc _ _ _).symm⟩

theorem tlv_append_inj {type : UInt8} {a b m n : Bytes} (ha : a.length < 65536)
    (hb : b.length < 65536) (h : tlv type a ++ m = tlv type b ++ n) :
    a = b ∧ m = n := by
  have hread := tlvRead_tlv type ha m (3 + a.length + b.length)
  rw [h, tlvRead_tlv type hb n, if_neg (by omega), if_neg (by omega)] at hread
  simp only [Option.some.injEq, Prod.mk.injEq, true_and] at hread
  have hab := List.append_inj hread.1.symm hread.2.symm
  exact hab

theorem Stops.not_begins {s : Schema} {bs rest : Bytes} {v : Struct s} (h : Stops o s bs v) :
    ¬ Begins s bs rest := by
  induction s generalizing bs with
  | nil => exact h.elim
  | cons t ts ih =>
    intro hbegins
    obtain ⟨data, m, hbs, hdata, hfits, hm⟩ := hbegins
    cases h with
    | inl hno => exact hno.1 ⟨data, m, hbs, hdata, hfits⟩
    | inr hlater =>
      obtain ⟨data', m', hbs', hdata', -, -, hm'⟩ := hlater
      have hsame := tlv_append_inj hdata hdata' (hbs.symm.trans hbs')
      rw [hsame.2] at hm
      exact ih hm' hm

theorem parseField_of_not_begins {t : FieldType} {bs : Bytes} (h : ¬ t.Begins bs)
    (beyond : Bytes) :
    parseField o t true (bs ++ beyond) bs.length = .error .rejected := by
  cases hf : parseField o t true (bs ++ beyond) bs.length with
  | error e =>
    cases e with
    | rejected => rfl
    | nullWrite => exact absurd hf (parseField_true t _ _)
  | ok vu =>
    obtain ⟨v, used⟩ := vu
    have hp : bs.length ≤ (bs ++ beyond).length := by simp
    obtain ⟨data, m, hbs, hdata, hfits, -, rfl, hle⟩ := parseField_eq_ok hp hf
    have hbegins : bs = tlv t.code data ++ m.take (bs.length - (3 + data.length)) := by
      have htake := congrArg (List.take bs.length) hbs
      rwa [List.take_left, List.take_append, tlv_length,
        List.take_of_length_le (by rw [tlv_length]; omega)] at htake
    exact absurd ⟨data, _, hbegins, hdata, hfits⟩ h

/-- A parser reads the TLVs of its fields one after the other, up to the first that is not there. -/
theorem parseFields_delivers_or_stops (s : Schema) (bs beyond : Bytes) :
    (∃ v rest, parseFields o s allOk (bs ++ beyond) bs.length = some (true, v, rest.length) ∧
        Delivers o s bs v rest) ∨
      ∃ v r, parseFields o s allOk (bs ++ beyond) bs.length = some (false, v, r) ∧
        Stops o s bs v := by
  induction s generalizing bs with
  | nil => exact .inl ⟨(), bs, rfl, rfl⟩
  | cons t ts ih =>
    by_cases hbegins : t.Begins bs
    · obtain ⟨data, m, rfl, hdata, hfits⟩ := hbegins
      have hstep := parseFields_cons_tlv (o := o) t ts hdata hfits (m ++ beyond) m.length
      rw [← List.append_assoc, ← tlv_length t.code data, ← List.length_append] at hstep
      cases ih m with
      | inl hall =>
        obtain ⟨vs, rest, hvs, hrest⟩ := hall
        rw [hvs] at hstep
        exact .inl ⟨(t.decode o data, vs), rest, hstep, data, m, rfl, hdata, hfits, rfl, hrest⟩
      | inr hstop =>
        obtain ⟨vs, r, hvs, hstop⟩ := hstop
        rw [hvs] at hstep
        exact .inr ⟨(t.decode o data, vs), r, hstep, .inr ⟨data, m, rfl, hdata, hfits, rfl, hstop⟩⟩
    · have hf := parseField_of_not_begins (o := o) hbegins beyond
      refine .inr ⟨(t.zero, Struct.zero ts), bs.length, ?_, .inl ⟨hbegins, rfl, rfl⟩⟩
      simp only [parseFields, allOk, hf]

theorem FieldType.wire_decode {t : FieldType} {data : Bytes} (hfits : t.Fits data)
    (hnul : t.NulFree (t.decode o data)) : t.wire o (t.decode o data) = tlv t.code data := by
  cases t with
  | string =>
    change tlv 0x02 (cstr data) = tlv 0x02 data
    rw [cstr_of_not_mem hnul]
  | u32 =>
    change tlv 0x01 (o.store32 (o.load32 data)) = tlv 0x01 data
    rw [o.store32_load32 hfits]
  | i32 =>
    change tlv 0x01 (o.store32 ((o.load32 data).toInt32).toUInt32) = tlv 0x01 data
    rw [UInt32.toUInt32_toInt32, o.store32_load32 hfits]
  | bytes => rfl

theorem Delivers.wire_append {s : Schema} {bs rest : Bytes} {v : Struct s}
    (h : Delivers o s bs v rest) (hnul : v.All FieldType.NulFree) :
    bs = Struct.wire o s v ++ rest := by
  induction s generalizing bs with
  | nil => exact h
  | cons t ts ih =>
    obtain ⟨v, vs⟩ := v
    obtain ⟨data, m, rfl, -, hfits, rfl, hm⟩ := h
    rw [Struct.wire, FieldType.wire_decode hfits hnul.1, List.append_assoc, ← ih hm hnul.2]

/-- A parser accepts exactly the inputs that begin with one TLV for each field, and delivers their
payloads. On any other input it returns -1 with the fields up to the one it misses. Its loads stay
inside the input, whatever lies `beyond`. Emitting an accepted struct without NULs in its strings
writes the bytes that were read. -/
theorem parser_acceptsExactly (o : ByteOrder) (s : Schema) (bs beyond : Bytes) :
    ∃ code v, parseStruct o s allOk (bs ++ beyond) bs.length = some (code, v) ∧
      parseStructLoads o s (bs ++ beyond) bs.length = some (code, v) ∧
      (code = 0 ↔ ∃ rest, Begins s bs rest) ∧
      (code = 0 → ∃ consumed rest, bs = consumed ++ rest ∧ Delivers o s bs v rest ∧
        (.i32 ∉ s → v.All FieldType.NulFree → ∀ buf : Bytes, consumed.length ≤ buf.length →
          emitFields o s v buf 0 =
            some (consumed ++ buf.drop consumed.length, consumed.length))) ∧
      (code ≠ 0 → code = -1 ∧ Stops o s bs v) := by
  have hlen : bs.length ≤ (bs ++ beyond).length := by simp
  rw [parseStructLoads_eq s hlen]
  cases parseFields_delivers_or_stops (o := o) s bs beyond with
  | inl h =>
    obtain ⟨v, rest, hv, hrest⟩ := h
    have hparse : parseStruct o s allOk (bs ++ beyond) bs.length = some (0, v) :=
      parseStruct_eq_zero_iff.mpr ⟨rest.length, hv⟩
    obtain ⟨consumed, hconsumed⟩ := hrest.suffix
    refine ⟨0, v, hparse, hparse, ?_, ?_, ?_⟩
    · exact iff_of_true rfl ⟨rest, hrest.begins⟩
    · intro _
      refine ⟨consumed, rest, hconsumed, hrest, ?_⟩
      intro hs hnul buf hroom
      have hwire : consumed = Struct.wire o s v :=
        List.append_cancel_right (hconsumed.symm.trans (hrest.wire_append hnul))
      rw [hwire] at hroom ⊢
      exact emitFields_of_le hs v hroom
    · intro hne
      exact absurd rfl hne
  | inr h =>
    obtain ⟨v, r, hv, hstop⟩ := h
    have hparse : parseStruct o s allOk (bs ++ beyond) bs.length = some (-1, v) := by
      rw [parseStruct, hv]
      rfl
    refine ⟨-1, v, hparse, hparse, ?_, ?_, ?_⟩
    · apply iff_of_false (by decide)
      intro hbegins
      obtain ⟨rest, hrest⟩ := hbegins
      exact hstop.not_begins hrest
    · intro hzero
      exact absurd hzero (by decide)
    · intro _
      exact ⟨rfl, hstop⟩

end CcRpc
