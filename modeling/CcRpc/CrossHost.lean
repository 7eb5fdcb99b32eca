import CcRpc.Grammar
import CcRpc.Wire

/-!
# Frames between two hosts

The header is swapped on every host, whatever its byte order, and numbers in TLVs are copied as they
are in memory. A number therefore arrives on a host of the other byte order with its bytes reversed,
and only a number that reads the same in both directions arrives as it was sent.
-/

namespace CcRpc

variable {o o₁ o₂ : ByteOrder} {h₁ h₂ : Host}

/-- What a host of order `o₂` reads where one of order `o₁` stored `v`. -/
def cross16 (o₁ o₂ : ByteOrder) (v : UInt16) : UInt16 := if o₁ = o₂ then v else swap16 v
def cross32 (o₁ o₂ : ByteOrder) (v : UInt32) : UInt32 := if o₁ = o₂ then v else swap32 v

theorem store16_eq_cross (o₁ o₂ : ByteOrder) (v : UInt16) : o₁.store16 v = o₂.store16 (cross16 o₁ o₂ v) := by
  unfold cross16 ByteOrder.store16
  cases o₁ <;> cases o₂
  · rfl
  · rw [if_neg (by decide), leBytes_swap16]
    exact (List.reverse_reverse _).symm
  · rw [if_neg (by decide), leBytes_swap16]
    rfl
  · rfl

theorem store32_eq_cross (o₁ o₂ : ByteOrder) (v : UInt32) : o₁.store32 v = o₂.store32 (cross32 o₁ o₂ v) := by
  unfold cross32 ByteOrder.store32
  cases o₁ <;> cases o₂
  · rfl
  · rw [if_neg (by decide), leBytes_swap32]
    exact (List.reverse_reverse _).symm
  · rw [if_neg (by decide), leBytes_swap32]
    rfl
  · rfl

theorem cross16_eq_self_iff {v : UInt16} : cross16 o₁ o₂ v = v ↔ o₁ = o₂ ∨ swap16 v = v := by
  unfold cross16
  split
  · next ho => exact iff_of_true rfl (Or.inl ho)
  · next ho => exact ⟨Or.inr, fun hor => hor.resolve_left ho⟩

theorem cross32_eq_self_iff {v : UInt32} : cross32 o₁ o₂ v = v ↔ o₁ = o₂ ∨ swap32 v = v := by
  unfold cross32
  split
  · next ho => exact iff_of_true rfl (Or.inl ho)
  · next ho => exact ⟨Or.inr, fun hor => hor.resolve_left ho⟩

@[simp] theorem ntohs_cross16_htons (v : UInt16) : ntohs (cross16 o₁ o₂ (htons v)) = cross16 o₁ o₂ v := by
  unfold cross16
  split
  · exact ntohs_htons v
  · exact congrArg ntohs (swap16_swap16 v)

@[simp] theorem ntohl_cross32_htonl (v : UInt32) : ntohl (cross32 o₁ o₂ (htonl v)) = cross32 o₁ o₂ v := by
  unfold cross32
  split
  · exact ntohl_htonl v
  · exact congrArg ntohl (swap32_swap32 v)

/-- A method length in reverse is no method length the receiver takes: its low byte is zero. -/
theorem swap16_small {v : UInt16} (hv : 0 < (swap16 v).toNat) (hsmall : (swap16 v).toNat < 256) :
    256 ≤ v.toNat := by
  have hlow : v.toNat % 256 = 0 := by
    have hbytes := leBytes_swap16 v
    simp only [Endian.leBytes, List.reverse_cons, List.reverse_nil, List.nil_append,
      List.cons_append, List.cons.injEq, and_true] at hbytes
    have hbyte := congrArg UInt8.toNat hbytes.2
    simp only [UInt8.toNat_ofNat'] at hbyte
    omega
  have hne : v.toNat ≠ 0 := by
    intro hz
    have : v = 0 := UInt16.toNat_inj.mp hz
    rw [this] at hv
    exact absurd hv (by decide)
  omega

/-- The header that arrives. -/
def RpcHeader.cross (o₁ o₂ : ByteOrder) (hdr : RpcHeader) : RpcHeader where
  status := cross16 o₁ o₂ hdr.status
  seq := cross32 o₁ o₂ hdr.seq
  msgLen := cross32 o₁ o₂ hdr.msgLen
  methodLen := cross16 o₁ o₂ hdr.methodLen

theorem RpcHeader.load_store_cross (hdr : RpcHeader) (m : Bytes) :
    RpcHeader.load o₂ (hdr.store o₁ ++ m) = hdr.cross o₁ o₂ := by
  have hstore : hdr.store o₁ = (hdr.cross o₁ o₂).store o₂ := by
    unfold RpcHeader.store RpcHeader.cross
    rw [store16_eq_cross o₁ o₂ hdr.status, store32_eq_cross o₁ o₂ hdr.seq,
      store32_eq_cross o₁ o₂ hdr.msgLen, store16_eq_cross o₁ o₂ hdr.methodLen]
  rw [hstore, RpcHeader.load_store]

/-- A field whose numbers read the same in both directions. -/
def FieldType.Palindrome : (t : FieldType) → t.Value → Prop
  | .u32, (v : UInt32) => swap32 v = v
  | .i32, (v : Int32) => swap32 v.toUInt32 = v.toUInt32
  | .string, _ | .bytes, _ => True

/-- A field that arrives as it was sent. -/
structure FieldType.Crosses (o₁ o₂ : ByteOrder) (t : FieldType) (v : t.Value) : Prop where
  nonNull : t.NonNull v
  short : t.Short o₁ v
  order : o₁ = o₂ ∨ t.Palindrome v

theorem FieldType.decode_cross_iff {t : FieldType} {v : t.Value} {data : Bytes} (hnul : t.NulFree v)
    (hdata : t.payload o₁ v = some data) : t.decode o₂ data = v ↔ o₁ = o₂ ∨ t.Palindrome v := by
  cases t with
  | string => exact iff_of_true (FieldType.decode_payload (o := o₂) hnul hdata) (Or.inr trivial)
  | bytes => exact iff_of_true (FieldType.decode_payload (o := o₂) hnul hdata) (Or.inr trivial)
  | u32 =>
    cases hdata
    change o₂.load32 (o₁.store32 v) = v ↔ _
    rw [store32_eq_cross o₁ o₂, ByteOrder.load32_store32]
    exact cross32_eq_self_iff
  | i32 =>
    cases hdata
    change (o₂.load32 (o₁.store32 v.toUInt32)).toInt32 = v ↔ _
    rw [store32_eq_cross o₁ o₂, ByteOrder.load32_store32]
    have hback : (cross32 o₁ o₂ v.toUInt32).toInt32 = v ↔
        cross32 o₁ o₂ v.toUInt32 = v.toUInt32 := by
      constructor
      · intro hv
        exact congrArg Int32.toUInt32 hv
      · intro hv
        rw [hv]
        rfl
    exact hback.trans cross32_eq_self_iff

theorem FieldType.payload_of_decode {t : FieldType} {v : t.Value} {data rest m : Bytes}
    (hnul : t.NulFree v) (hfits : t.Fits data) (hv : v = t.decode o₂ data)
    (hbegin : t.wire o₁ v ++ rest = tlv t.code data ++ m) : t.payload o₁ v = some data := by
  have hnumber : ∀ n : UInt32, data.length = 4 →
      tlv 0x01 (o₁.store32 n) ++ rest = tlv 0x01 data ++ m → o₁.store32 n = data := by
    intro n hlen heq
    have htlv := (List.append_inj heq (by rw [tlv_length, tlv_length, o₁.store32_length, hlen])).1
    exact (List.append_inj htlv rfl).2
  cases t with
  | string =>
    subst hv
    exact congrArg some (cstr_of_not_mem hnul)
  | bytes =>
    subst hv
    rfl
  | u32 => exact congrArg some (hnumber v hfits hbegin)
  | i32 => exact congrArg some (hnumber v.toUInt32 hfits hbegin)

theorem FieldType.wire_of_payload {t : FieldType} {v : t.Value} {data : Bytes}
    (hdata : t.payload o v = some data) : t.wire o v = tlv t.code data := by
  unfold FieldType.wire
  rw [hdata]

theorem parseFields_of_crosses {s : Schema} {v : Struct s} (hnul : v.All FieldType.NulFree)
    (hcross : v.All (FieldType.Crosses o₁ o₂)) (m : Bytes) (k : Nat) :
    parseFields o₂ s allOk (Struct.wire o₁ s v ++ m) ((Struct.wire o₁ s v).length + k) =
      some (true, v, k) := by
  induction s with
  | nil =>
    change some (true, (), 0 + k) = some (true, v, k)
    rw [Nat.zero_add]
  | cons t ts ih =>
    obtain ⟨v, vs⟩ := v
    obtain ⟨data, hdata⟩ := FieldType.payload_isSome (o := o₁) hcross.1.nonNull
    have hlt : data.length < 65536 := Nat.lt_succ_of_le (hcross.1.short data hdata)
    have hrest := ih hnul.2 hcross.2
    rw [Struct.wire, FieldType.wire_of_payload hdata, List.append_assoc, List.length_append, tlv_length,
      Nat.add_assoc, parseFields_cons_tlv t ts hlt (FieldType.fits_payload hdata), hrest,
      (FieldType.decode_cross_iff hnul.1 hdata).mpr hcross.1.order]
    rfl

theorem crosses_of_parseFields {s : Schema} {v : Struct s} (hnul : v.All FieldType.NulFree)
    {m : Bytes} {remain r : Nat} (hremain : remain ≤ (Struct.wire o₁ s v ++ m).length)
    (hparse : parseFields o₂ s allOk (Struct.wire o₁ s v ++ m) remain = some (true, v, r)) :
    v.All (FieldType.Crosses o₁ o₂) := by
  induction s generalizing remain with
  | nil => trivial
  | cons t ts ih =>
    obtain ⟨v, vs⟩ := v
    cases hf : parseField o₂ t (allOk 0) (Struct.wire o₁ (t :: ts) (v, vs) ++ m) remain with
    | error e => cases e <;> simp [parseFields, hf] at hparse
    | ok vu =>
      obtain ⟨x, used⟩ := vu
      rw [parseFields_cons hf, Option.map_eq_some_iff] at hparse
      obtain ⟨⟨acc, xs, r'⟩, hvs, heq⟩ := hparse
      cases heq
      obtain ⟨data, m', hbegin, hdata, hfits, hv, rfl, hle⟩ := parseField_eq_ok hremain hf
      rw [Struct.wire, List.append_assoc] at hbegin hvs hremain
      have hpayload := FieldType.payload_of_decode hnul.1 hfits hv hbegin
      have hwire := FieldType.wire_of_payload hpayload
      rw [hwire] at hvs hremain
      rw [List.drop_left' (tlv_length _ _)] at hvs
      have hshort : t.Short o₁ v := by
        intro data' hdata'
        rw [hpayload] at hdata'
        cases hdata'
        exact Nat.le_of_lt_succ hdata
      have hnull : t.NonNull v := by
        by_contra hn
        rw [FieldType.payload_eq_none.mpr hn] at hpayload
        cases hpayload
      refine ⟨⟨hnull, hshort, (FieldType.decode_cross_iff hnul.1 hpayload).mp hv.symm⟩, ?_⟩
      apply ih hnul.2 _ hvs
      rw [List.length_append, tlv_length] at hremain
      omega

theorem parseStruct_cross_iff (o₁ o₂ : ByteOrder) {s : Schema} {v : Struct s} (hnul : v.All FieldType.NulFree) (m : Bytes) :
    parseStruct o₂ s allOk (Struct.wire o₁ s v ++ m) (Struct.wire o₁ s v).length = some (0, v) ↔
      v.All (FieldType.Crosses o₁ o₂) := by
  rw [parseStruct_eq_zero_iff]
  constructor
  · rintro ⟨r, hparse⟩
    apply crosses_of_parseFields hnul _ hparse
    rw [List.length_append]
    exact Nat.le_add_right _ _
  · intro hcross
    exact ⟨0, parseFields_of_crosses hnul hcross m 0⟩

/-- A request that arrives: the hosts are of one byte order, the receiver has room for the name, and
the length fits its field. -/
structure RequestCrosses (o₁ o₂ : ByteOrder) (name : Bytes) (tlvLen : Nat) : Prop where
  order : o₁ = o₂
  named : 1 ≤ strlen name
  room : strlen name ≤ 127
  length : strlen name + tlvLen < 2 ^ 32

theorem requestMessage_eq_some {seq : UInt32} {name tlv f : Bytes}
    (hf : requestMessage h₁ seq name tlv = some f) :
    f = (requestHeader seq (strlen name) tlv.length).store h₁.order ++ (cstr name ++ tlv) := by
  rw [requestMessage_eq] at hf
  split at hf
  · exact (Option.some.inj hf).symm
  · cases hf

theorem requestOf_of_crosses {seq : UInt32} {name tlv f : Bytes}
    (hf : requestMessage h₁ seq name tlv = some f)
    (hcross : RequestCrosses h₁.order h₂.order name tlv.length) :
    isResponse h₂ f = false ∧ requestOf h₂ f f.length = some ⟨seq, cstr name, tlv, tlv.length⟩ := by
  obtain ⟨horder, hnamed, hroom, hlength⟩ := hcross
  have hmsg := requestHeader_msgLen seq (strlen name) tlv.length
  have hmeth := requestHeader_methodLen seq hroom tlv.length
  rw [Nat.mod_eq_of_lt hlength] at hmsg
  have hsize := h₂.word.sizeT_le (sizeofRpcHeader + (strlen name + tlv.length))
  rw [requestMessage_eq_some hf, horder]
  constructor
  · unfold isResponse
    rw [RpcHeader.load_store, beq_eq_false_iff_ne]
    intro hz
    rw [hz] at hmeth
    have hzero : (0 : UInt16).toNat = 0 := rfl
    omega
  · unfold requestOf
    simp only [RpcHeader.load_store, hmsg, hmeth, List.length_append, RpcHeader.store_length,
      length_cstr]
    rw [if_neg (by omega), if_neg (by omega), if_neg (by simp only [methodCap]; omega),
      if_neg (by omega)]
    rw [List.drop_left' (RpcHeader.store_length _ _), List.take_left' (length_cstr name),
      List.drop_left' (length_cstr name), Nat.add_sub_cancel_left]
    simp [requestHeader]

/-- What the receiver takes for the request that was sent. -/
theorem crosses_of_requestOf {seq : UInt32} {name tlv f : Bytes}
    (hf : requestMessage h₁ seq name tlv = some f) {req : Request}
    (hreq : requestOf h₂ f f.length = some req) (hname : req.name = cstr name)
    (hlen : req.tlvLen = tlv.length) : RequestCrosses h₁.order h₂.order name tlv.length := by
  rw [requestMessage_eq_some hf] at hreq
  unfold requestOf at hreq
  simp only [RpcHeader.load_store_cross, RpcHeader.cross, requestHeader, ntohs_cross16_htons,
    ntohl_cross32_htonl] at hreq
  split at hreq
  · cases hreq
  · split at hreq
    · cases hreq
    · next hcovers =>
      split at hreq
      · cases hreq
      · next hroom =>
        split at hreq
        · cases hreq
        · cases hreq
          dsimp only at hname hlen
          rw [List.drop_left' (RpcHeader.store_length _ _)] at hname
          -- the name it takes is as long as the name that was sent
          have htaken := congrArg List.length hname
          rw [List.length_take, List.length_append, length_cstr] at htaken
          have hofNat : (UInt16.ofNat (strlen name)).toNat = strlen name % 2 ^ 16 := UInt16.toNat_ofNat'
          have horder : h₁.order = h₂.order := by
            by_contra hne
            rw [cross16, if_neg hne] at htaken hroom
            have hbig := swap16_small (v := UInt16.ofNat (strlen name))
              (by omega) (by simp only [methodCap] at hroom; omega)
            simp only [methodCap] at hroom
            omega
          rw [cross16, if_pos horder, hofNat] at htaken hroom hlen hcovers
          rw [cross32, if_pos horder, UInt32.toNat_ofNat'] at hlen hcovers
          simp only [methodCap] at hroom
          exact ⟨horder, by omega, by omega, by omega⟩

/-- What `rpc_send_request_tlv` and `rpc_send_response_tlv` are told to send along with the TLVs. -/
inductive Sent where
  | request (seq : UInt32) (name : Bytes)
  | response (seq : UInt32) (status : UInt16)
  deriving DecidableEq, Repr

/-- The frame, for the first `len` bytes of `buf`. -/
def Sent.build (h : Host) (buf : Bytes) (len : Nat) : Sent → Option Bytes
  | .request seq name => requestMessage h seq name (buf.take len)
  | .response seq status => responseMessage h seq status (some buf) len

/-- The dispatcher and the generated parser of the host `h` find in the frame `f` what was sent. -/
def Sent.Decoded (h : Host) (s : Schema) (v : Struct s) (len : Nat) (f : Bytes) : Sent → Prop
  | .request seq name => isResponse h f = false ∧ ∃ req, requestOf h f f.length = some req ∧
      req.seq = seq ∧ req.name = cstr name ∧ req.tlvLen = len ∧
        parseStruct h.order s allOk req.tlv req.tlvLen = some (0, v)
  | .response seq status => isResponse h f = true ∧ ∃ r, responseOf h f f.length = some r ∧
      r.seq = seq ∧ r.status = status ∧ r.msgLen = len ∧
        parseStruct h.order s allOk r.payload r.msgLen = some (0, v)

/-- What arrives on a host of order `o₂`. A response also arrives on one of the other order if every
number in it reads the same in both directions. -/
def Sent.Crosses (o₁ o₂ : ByteOrder) (s : Schema) (v : Struct s) (len : Nat) : Sent → Prop
  | .request _ name => RequestCrosses o₁ o₂ name len ∧ v.All (FieldType.Crosses o₁ o₂)
  | .response seq status => (o₁ = o₂ ∨
      swap32 seq = seq ∧ swap16 status = status ∧ swap32 (UInt32.ofNat len) = UInt32.ofNat len) ∧
        len < 2 ^ 32 ∧ v.All (FieldType.Crosses o₁ o₂)

theorem responseMessage_some {seq : UInt32} {status : UInt16} {buf : Bytes} {len : Nat} {f : Bytes}
    (hlen : len ≤ buf.length) (hf : responseMessage h₁ seq status (some buf) len = some f) :
    f = (responseHeader seq status len).store h₁.order ++ buf.take len := by
  have htake : (buf.take len).length = len := List.length_take_of_le hlen
  by_cases hlt : sizeofRpcHeader + len < 2 ^ h₁.word.bits
  · have hdata : ((some buf).getD []).take (buf.take len).length = buf.take len := by
      rw [Option.getD_some, htake]
    have hfits : sizeofRpcHeader + (buf.take len).length < 2 ^ h₁.word.bits := by
      rw [htake]
      exact hlt
    have heq := responseMessage_eq h₁ seq status hdata hfits
    rw [htake, hf] at heq
    exact Option.some.inj heq
  · have htotal : h₁.word.sizeT (sizeofRpcHeader + len) < 2 ^ h₁.word.bits :=
      Nat.mod_lt _ (Nat.two_pow_pos _)
    have hword := h₁.word.two_pow_le
    have hpos : 0 < len := by
      simp only [sizeofRpcHeader] at hlt
      omega
    obtain ⟨msg, hmsg, hcopy⟩ := Option.bind_eq_some_iff.mp hf
    have hsize := memcpy_length hmsg
    rw [List.length_replicate] at hsize
    dsimp only at hcopy
    rw [if_neg (Nat.not_lt.mpr hlen), if_pos hpos, memcpy_eq_none (by omega)] at hcopy
    cases hcopy

theorem response_decoded_iff {s : Schema} {v : Struct s} {seq : UInt32} {status : UInt16} {data f : Bytes}
    (hf : f = (responseHeader seq status data.length).store h₁.order ++ data)
    (hparse : parseStruct h₂.order s allOk data data.length = some (0, v) ↔
      v.All (FieldType.Crosses h₁.order h₂.order)) :
    (Sent.response seq status).Decoded h₂ s v data.length f ↔
      (Sent.response seq status).Crosses h₁.order h₂.order s v data.length := by
  have hpayload : f.drop sizeofRpcHeader = data := by
    rw [hf]
    exact List.drop_left' (RpcHeader.store_length _ _)
  have hlength : f.length = sizeofRpcHeader + data.length := by
    rw [hf, List.length_append, RpcHeader.store_length]
  have hload : RpcHeader.load h₂.order f =
      (responseHeader seq status data.length).cross h₁.order h₂.order := by
    rw [hf, RpcHeader.load_store_cross]
  have hresp : isResponse h₂ f = true := by
    unfold isResponse
    rw [hload]
    simp only [RpcHeader.cross, responseHeader, cross16]
    split <;> decide
  have hresponse : responseOf h₂ f f.length =
      if f.length < h₂.word.sizeT
          (sizeofRpcHeader + (cross32 h₁.order h₂.order (UInt32.ofNat data.length)).toNat) then none
      else some ⟨cross32 h₁.order h₂.order seq, cross16 h₁.order h₂.order status, data,
        (cross32 h₁.order h₂.order (UInt32.ofNat data.length)).toNat⟩ := by
    unfold responseOf
    rw [if_neg (by omega), hload, hpayload]
    simp only [RpcHeader.cross, responseHeader, ntohs_cross16_htons, ntohl_cross32_htonl]
  have hnumbers : cross32 h₁.order h₂.order seq = seq ∧ cross16 h₁.order h₂.order status = status ∧
      (cross32 h₁.order h₂.order (UInt32.ofNat data.length)).toNat = data.length ↔
      (h₁.order = h₂.order ∨ swap32 seq = seq ∧ swap16 status = status ∧
        swap32 (UInt32.ofNat data.length) = UInt32.ofNat data.length) ∧ data.length < 2 ^ 32 := by
    have hmsgLen : (cross32 h₁.order h₂.order (UInt32.ofNat data.length)).toNat = data.length ↔
        cross32 h₁.order h₂.order (UInt32.ofNat data.length) = UInt32.ofNat data.length ∧
          data.length < 2 ^ 32 := by
      constructor
      · intro heq
        have hlt : data.length < 2 ^ 32 := by
          rw [← heq]
          exact UInt32.toNat_lt _
        refine ⟨UInt32.toNat_inj.mp ?_, hlt⟩
        rw [heq, UInt32.toNat_ofNat_of_lt' hlt]
      · rintro ⟨heq, hlt⟩
        rw [heq, UInt32.toNat_ofNat_of_lt' hlt]
    rw [hmsgLen, cross32_eq_self_iff, cross16_eq_self_iff, cross32_eq_self_iff]
    tauto
  unfold Sent.Decoded Sent.Crosses
  dsimp only
  rw [← and_assoc, ← hnumbers, hresponse, ← hparse]
  constructor
  · rintro ⟨-, r, hr, hseq, hstatus, hlen, hdec⟩
    split at hr
    · cases hr
    · cases hr
      dsimp only at hseq hstatus hlen hdec
      rw [hlen] at hdec
      exact ⟨⟨hseq, hstatus, hlen⟩, hdec⟩
  · rintro ⟨⟨hseq, hstatus, hlen⟩, hdec⟩
    have hsize := h₂.word.sizeT_le (sizeofRpcHeader + data.length)
    rw [hlen, if_neg (by omega)]
    exact ⟨hresp, _, rfl, hseq, hstatus, rfl, hdec⟩

/-- A frame is decoded on the other host if and only if all of it arrives. -/
theorem decoded_iff {s : Schema} (hs : .i32 ∉ s) {v : Struct s} (hnul : v.All FieldType.NulFree)
    {buf buf' : Bytes} {len : Nat} (hemit : emitFields h₁.order s v buf 0 = some (buf', len))
    {x : Sent} {f : Bytes} (hbuild : x.build h₁ buf' len = some f) :
    x.Decoded h₂ s v len f ↔ x.Crosses h₁.order h₂.order s v len := by
  have hroom : (Struct.wire h₁.order s v).length ≤ buf.length := by
    by_contra hlt
    rw [emitFields_of_lt hs v (Nat.lt_of_not_le hlt)] at hemit
    cases hemit
  rw [emitFields_of_le hs v hroom] at hemit
  cases hemit
  have hparse := parseStruct_cross_iff h₁.order h₂.order hnul []
  rw [List.append_nil] at hparse
  cases x with
  | request seq name =>
    unfold Sent.build at hbuild
    rw [List.take_left] at hbuild
    constructor
    · rintro ⟨-, req, hreq, hseq, hname, hlen, hdec⟩
      have hcross := crosses_of_requestOf hbuild hreq hname hlen
      have hsame := (requestOf_of_crosses hbuild hcross).2
      rw [hsame] at hreq
      cases hreq
      exact ⟨hcross, hparse.mp hdec⟩
    · rintro ⟨hcross, hfields⟩
      obtain ⟨hresp, hsame⟩ := requestOf_of_crosses hbuild hcross
      exact ⟨hresp, _, hsame, rfl, rfl, rfl, hparse.mpr hfields⟩
  | response seq status =>
    have hframe := responseMessage_some (by simp) hbuild
    rw [List.take_left] at hframe
    exact response_decoded_iff hframe hparse

/-- The number 7, in a request for the method `e`. -/
theorem decoded_iff_small :
    (Sent.request 1 [0x65]).Decoded ⟨.little, .w32⟩ [.u32] ((7 : UInt32), ()) 7
      [0, 0, 0, 0, 0, 1, 0, 0, 0, 8, 0, 1, 0x65, 1, 4, 0, 7, 0, 0, 0] := by
  have hemit : emitFields .little [.u32] ((7 : UInt32), ()) (List.replicate 7 0) 0 =
      some ([1, 4, 0, 7, 0, 0, 0], 7) := rfl
  have hbuild : (Sent.request 1 [0x65]).build ⟨.little, .w64⟩ [1, 4, 0, 7, 0, 0, 0] 7 =
      some [0, 0, 0, 0, 0, 1, 0, 0, 0, 8, 0, 1, 0x65, 1, 4, 0, 7, 0, 0, 0] := by decide
  have hnul : Struct.All FieldType.NulFree [.u32] ((7 : UInt32), ()) := ⟨trivial, trivial⟩
  have hiff := @decoded_iff ⟨.little, .w64⟩ ⟨.little, .w32⟩ _ (by decide) _ hnul _ _ _ hemit _ _ hbuild
  have hfield : FieldType.Crosses .little .little .u32 (7 : UInt32) :=
    ⟨trivial, fun data hdata => by cases hdata; decide, Or.inl rfl⟩
  exact hiff.mpr ⟨⟨rfl, by decide, by decide, by decide⟩, hfield, trivial⟩

/-- On a big-endian host the same frame is no request. -/
theorem request_to_other_order :
    ∃ buf len f, emitFields .little [.u32] ((7 : UInt32), ()) (List.replicate 7 0) 0 = some (buf, len) ∧
      (Sent.request 1 [0x65]).build ⟨.little, .w64⟩ buf len = some f ∧
        ¬ (Sent.request 1 [0x65]).Decoded ⟨.big, .w64⟩ [.u32] ((7 : UInt32), ()) len f := by
  refine ⟨[1, 4, 0, 7, 0, 0, 0], 7,
    [0, 0, 0, 0, 0, 1, 0, 0, 0, 8, 0, 1, 0x65, 1, 4, 0, 7, 0, 0, 0], rfl, by decide, ?_⟩
  rintro ⟨-, req, hreq, -⟩
  have hnone : requestOf ⟨.big, .w64⟩
      [0, 0, 0, 0, 0, 1, 0, 0, 0, 8, 0, 1, 0x65, 1, 4, 0, 7, 0, 0, 0] 20 = none := by decide
  change requestOf _ _ 20 = some req at hreq
  rw [hnone] at hreq
  cases hreq

end CcRpc
