import CcRpc.Tlv

/-!
# Messages (`rpc.h`, the framing half of `rpc.c`)

A message is a packed twelve-byte header and a payload. A request's payload is the method name
followed by the TLV area; a response has method length 0 and the TLV area alone.
-/

namespace CcRpc

/-- `rpc_status_t`. -/
inductive RpcStatus where
  | ok
  | methodNotFound
  | invalidParams
  | internalError
  | transportError
  | timeout
  deriving DecidableEq, Repr

def RpcStatus.code : RpcStatus → UInt16
  | .ok => 0
  | .methodNotFound => 1
  | .invalidParams => 2
  | .internalError => 3
  | .transportError => 4
  | .timeout => 5

/-- `struct rpc_header`; the fields hold what is stored in them, after `htons` and `htonl`. -/
structure RpcHeader where
  status : UInt16
  seq : UInt32
  msgLen : UInt32
  methodLen : UInt16
  deriving DecidableEq, Repr

/-- `sizeof(struct rpc_header)`; the struct is packed. -/
def sizeofRpcHeader : Nat := 12

def RpcHeader.store (o : ByteOrder) (hdr : RpcHeader) : Bytes :=
  o.store16 hdr.status ++ (o.store32 hdr.seq ++ (o.store32 hdr.msgLen ++ o.store16 hdr.methodLen))

def RpcHeader.load (o : ByteOrder) (b : Bytes) : RpcHeader where
  status := o.load16 (b.take 2)
  seq := o.load32 ((b.drop 2).take 4)
  msgLen := o.load32 ((b.drop 6).take 4)
  methodLen := o.load16 ((b.drop 10).take 2)

@[simp] theorem RpcHeader.store_length (o : ByteOrder) (hdr : RpcHeader) :
    (hdr.store o).length = sizeofRpcHeader := by
  simp [store, sizeofRpcHeader]

@[simp] theorem RpcHeader.load_store (o : ByteOrder) (hdr : RpcHeader) (m : Bytes) :
    RpcHeader.load o (hdr.store o ++ m) = hdr := by
  have h2 := o.store16_length hdr.status
  have h4 := o.store32_length hdr.seq
  have h4' := o.store32_length hdr.msgLen
  have h2' := o.store16_length hdr.methodLen
  have hd6 : ∀ x : Bytes, (o.store16 hdr.status ++ (o.store32 hdr.seq ++ x)).drop 6 = x := by
    intro x
    rw [← List.append_assoc, List.drop_left' (by simp)]
  have hd10 : ∀ x : Bytes,
      (o.store16 hdr.status ++ (o.store32 hdr.seq ++ (o.store32 hdr.msgLen ++ x))).drop 10 = x := by
    intro x
    rw [← List.append_assoc, ← List.append_assoc, List.drop_left' (by simp)]
  simp only [load, store, List.append_assoc, hd6, hd10, List.take_left' h2, List.drop_left' h2,
    List.take_left' h4, List.take_left' h4', List.take_left' h2', ByteOrder.load16_store16,
    ByteOrder.load32_store32]

theorem RpcHeader.load_take {o : ByteOrder} {b : Bytes} {n : Nat} (hn : sizeofRpcHeader ≤ n) :
    RpcHeader.load o (b.take n) = RpcHeader.load o b := by
  unfold sizeofRpcHeader at hn
  simp only [load, List.take_take, List.drop_take]
  rw [min_eq_left (by omega), min_eq_left (by omega), min_eq_left (by omega), min_eq_left (by omega)]

theorem RpcHeader.load_append {o : ByteOrder} {b : Bytes} (hb : sizeofRpcHeader ≤ b.length)
    (m : Bytes) : RpcHeader.load o (b ++ m) = RpcHeader.load o b := by
  have h := RpcHeader.load_take (o := o) (b := b ++ m) hb
  rwa [List.take_left, eq_comm] at h

/-- The payload length a header announces. -/
def announced (o : ByteOrder) (b : Bytes) : Nat := (ntohl (RpcHeader.load o b).msgLen).toNat

theorem announced_lt (o : ByteOrder) (b : Bytes) : announced o b < 2 ^ 32 := UInt32.toNat_lt _

/-- Messages as frames: the header tells the length. -/
def wireFraming (o : ByteOrder) : Framing UInt8 where
  need bs := if sizeofRpcHeader ≤ bs.length then some (sizeofRpcHeader + announced o bs) else none
  need_pos := by
    intro bs n h
    split at h
    · cases h
      simp only [sizeofRpcHeader]
      omega
    · cases h
  need_append := by
    intro bs n cs h
    split at h
    · next hle =>
      rw [if_pos (by simp only [List.length_append]; omega), ← h, announced, announced,
        RpcHeader.load_append hle]
    · cases h
  need_take := by
    intro bs n h hn
    split at h
    · have hle : sizeofRpcHeader ≤ n := by
        cases h
        omega
      rw [if_pos (by rw [List.length_take_of_le hn]; exact hle), ← h, announced, announced,
        RpcHeader.load_take hle]
    · cases h

/-- On a little-endian host the announced length is the big-endian number in bytes 6 to 9. -/
theorem announced_little {b : Bytes} (hb : sizeofRpcHeader ≤ b.length) :
    announced .little b = Endian.beValue ((b.drop 6).take 4) := by
  have hlen : ((b.drop 6).take 4).length = 4 := by
    unfold sizeofRpcHeader at hb
    rw [List.length_take, List.length_drop]
    omega
  have hval : Endian.leValue ((b.drop 6).take 4) < 2 ^ 32 := by
    have := Endian.leValue_lt ((b.drop 6).take 4)
    rwa [hlen] at this
  have hbytes : Endian.leBytes 4 (UInt32.ofNat (Endian.leValue ((b.drop 6).take 4))).toNat =
      (b.drop 6).take 4 := by
    have := Endian.leBytes_leValue ((b.drop 6).take 4)
    rwa [hlen, ← UInt32.toNat_ofNat_of_lt' hval] at this
  unfold announced Endian.beValue
  rw [← hbytes, ← leBytes_swap32, Endian.leValue_leBytes_of_lt (UInt32.toNat_lt _)]
  rfl

def requestHeader (seq : UInt32) (mlen tlvLen : Nat) : RpcHeader where
  status := htons RpcStatus.ok.code
  seq := htonl seq
  msgLen := htonl (UInt32.ofNat (mlen + tlvLen))
  methodLen := htons (UInt16.ofNat mlen)

/-- The message `rpc_send_request_tlv` builds, in a buffer of `total` bytes. -/
def requestMessage (h : Host) (seq : UInt32) (name tlv : Bytes) : Option Bytes :=
  let mlen := strlen name
  let total := h.word.sizeT (sizeofRpcHeader + mlen + tlv.length)
  let msg := List.replicate total 0
  (memcpy msg 0 ((requestHeader seq mlen tlv.length).store h.order)).bind fun msg =>
    (memcpy msg sizeofRpcHeader (name.take mlen)).bind fun msg =>
      if 0 < tlv.length then memcpy msg (sizeofRpcHeader + mlen) tlv else some msg

def responseHeader (seq : UInt32) (status : UInt16) (tlvLen : Nat) : RpcHeader where
  status := htons status
  seq := htonl seq
  msgLen := htonl (UInt32.ofNat tlvLen)
  methodLen := htons 0

/-- The message `rpc_send_response_tlv` builds; `tlv` is NULL or the memory to copy from, which is not
read beyond its end. -/
def responseMessage (h : Host) (seq : UInt32) (status : UInt16) (tlv : Option Bytes)
    (tlvLen : Nat) : Option Bytes :=
  let total := h.word.sizeT (sizeofRpcHeader + tlvLen)
  let msg := List.replicate total 0
  (memcpy msg 0 ((responseHeader seq status tlvLen).store h.order)).bind fun msg =>
    match tlv with
    | some data =>
      if data.length < tlvLen then none
      else if 0 < tlvLen then memcpy msg sizeofRpcHeader (data.take tlvLen)
      else some msg
    | none => some msg

theorem memcpy_whole {n : Nat} {data : Bytes} (h : n ≤ data.length) :
    memcpy (List.replicate n 0) 0 data = if n = data.length then some data else none := by
  by_cases hn : n = data.length
  · rw [if_pos hn, memcpy_eq_some (by simp [hn])]
    simp [hn]
  · rw [if_neg hn, memcpy_eq_none (by simp; omega)]

private theorem memcpy_if_pos {buf data : Bytes} {off : Nat} (h : off ≤ buf.length) :
    (if 0 < data.length then memcpy buf off data else some buf) = memcpy buf off data := by
  cases data with
  | nil => rw [memcpy_nil h, if_neg (by simp)]
  | cons b bs => rw [if_pos (by simp)]

theorem requestMessage_eq (h : Host) (seq : UInt32) (name tlv : Bytes) :
    requestMessage h seq name tlv =
      if sizeofRpcHeader + strlen name + tlv.length < 2 ^ h.word.bits then
        some ((requestHeader seq (strlen name) tlv.length).store h.order ++ (cstr name ++ tlv))
      else none := by
  let hdr := (requestHeader seq (strlen name) tlv.length).store h.order
  let total := h.word.sizeT (sizeofRpcHeader + strlen name + tlv.length)
  have hhdr : hdr.length = sizeofRpcHeader := RpcHeader.store_length _ _
  have hlen : (hdr ++ (cstr name ++ tlv)).length = sizeofRpcHeader + strlen name + tlv.length := by
    simp only [List.length_append, hhdr, length_cstr]
    omega
  have hone : requestMessage h seq name tlv =
      memcpy (List.replicate total 0) 0 (hdr ++ (cstr name ++ tlv)) := by
    rw [← memcpy_bind_memcpy, Nat.zero_add, hhdr]
    unfold requestMessage
    simp only [take_strlen]
    refine Option.bind_congr fun msg _ => ?_
    rw [← memcpy_bind_memcpy, length_cstr]
    refine Option.bind_congr fun msg' hmsg' => memcpy_if_pos ?_
    have hl := memcpy_length hmsg'
    unfold memcpy at hmsg'
    split at hmsg'
    · next hle =>
      rw [length_cstr] at hle
      omega
    · cases hmsg'
  have hle : total ≤ (hdr ++ (cstr name ++ tlv)).length := hlen ▸ WordSize.sizeT_le _ _
  rw [hone, memcpy_whole hle, hlen]
  by_cases hlt : sizeofRpcHeader + strlen name + tlv.length < 2 ^ h.word.bits
  · rw [if_pos hlt, if_pos (WordSize.sizeT_of_lt hlt)]
  · rw [if_neg hlt, if_neg]
    intro heq
    have hmod : total < 2 ^ h.word.bits := Nat.mod_lt _ (Nat.two_pow_pos _)
    omega

/-- A response message, when the memory it copies from holds `tlvLen` bytes. -/
theorem responseMessage_eq (h : Host) (seq : UInt32) (status : UInt16) {tlv : Option Bytes}
    {data : Bytes} (hdata : (tlv.getD []).take data.length = data)
    (hlt : sizeofRpcHeader + data.length < 2 ^ h.word.bits) :
    responseMessage h seq status tlv data.length =
      some ((responseHeader seq status data.length).store h.order ++ data) := by
  let hdr := (responseHeader seq status data.length).store h.order
  have hhdr : hdr.length = sizeofRpcHeader := RpcHeader.store_length _ _
  have hone : responseMessage h seq status tlv data.length =
      memcpy (List.replicate (sizeofRpcHeader + data.length) 0) 0 (hdr ++ data) := by
    rw [← memcpy_bind_memcpy, Nat.zero_add, hhdr]
    unfold responseMessage
    rw [WordSize.sizeT_of_lt hlt]
    refine Option.bind_congr fun msg hmsg => ?_
    have hroom : sizeofRpcHeader ≤ msg.length := by
      rw [memcpy_length hmsg, List.length_replicate]
      omega
    cases tlv with
    | none =>
      have hnil : data = [] := by simpa using hdata.symm
      rw [hnil, memcpy_nil hroom]
    | some mem =>
      rw [Option.getD_some] at hdata
      have henough : ¬ mem.length < data.length := by
        intro hshort
        have hlen := congrArg List.length hdata
        rw [List.length_take] at hlen
        omega
      change (if mem.length < data.length then none else
        if 0 < data.length then memcpy msg sizeofRpcHeader (mem.take data.length)
        else some msg) = _
      rw [if_neg henough, hdata]
      exact memcpy_if_pos hroom
  have hlen : (hdr ++ data).length = sizeofRpcHeader + data.length := by
    rw [List.length_append, hhdr]
  rw [hone, memcpy_whole (Nat.le_of_eq hlen.symm), if_pos hlen.symm]

/-- `METHOD_LEN`, the size of the static `method` buffer. -/
def methodCap : Nat := 128

/-- What `rpc_handle_request` takes from a message it does not drop: the method name bytes, the
memory from `tlv` on, and `tlv_len`. -/
structure Request where
  seq : UInt32
  name : Bytes
  tlv : Bytes
  tlvLen : Nat
  deriving DecidableEq, Repr

/-- The checks at the head of `rpc_handle_request`. -/
def requestOf (h : Host) (msg : Bytes) (len : Nat) : Option Request :=
  if len < sizeofRpcHeader then none
  else
    let hdr := RpcHeader.load h.order msg
    let msgLen := (ntohl hdr.msgLen).toNat
    let methodLen := (ntohs hdr.methodLen).toNat
    if msgLen < methodLen then none
    else if methodLen = 0 ∨ methodCap ≤ methodLen then none
    else if len < h.word.sizeT (sizeofRpcHeader + msgLen) then none
    else
      let payload := msg.drop sizeofRpcHeader
      some ⟨ntohl hdr.seq, payload.take methodLen, payload.drop methodLen, msgLen - methodLen⟩

/-- What `rpc_handle_response` takes from a message it does not drop. -/
structure Response where
  seq : UInt32
  status : UInt16
  payload : Bytes
  msgLen : Nat
  deriving DecidableEq, Repr

/-- The checks at the head of `rpc_handle_response`. -/
def responseOf (h : Host) (msg : Bytes) (len : Nat) : Option Response :=
  if len < sizeofRpcHeader then none
  else
    let hdr := RpcHeader.load h.order msg
    let msgLen := (ntohl hdr.msgLen).toNat
    if len < h.word.sizeT (sizeofRpcHeader + msgLen) then none
    else some ⟨ntohl hdr.seq, ntohs hdr.status, msg.drop sizeofRpcHeader, msgLen⟩

/-- `rpc_dispatch_message` takes a message with method length 0 for a response. -/
def isResponse (h : Host) (msg : Bytes) : Bool := ntohs (RpcHeader.load h.order msg).methodLen == 0

theorem isFrame_iff {o : ByteOrder} {f : Bytes} :
    (wireFraming o).IsFrame f ↔
      sizeofRpcHeader ≤ f.length ∧ f.length = sizeofRpcHeader + announced o f := by
  unfold Framing.IsFrame wireFraming
  constructor
  · intro h
    dsimp only at h
    split at h
    · next hle => exact ⟨hle, (Option.some.inj h).symm⟩
    · cases h
  · intro h
    dsimp only
    rw [if_pos h.1, ← h.2]

theorem announced_store (o : ByteOrder) (hdr : RpcHeader) (m : Bytes) :
    announced o (hdr.store o ++ m) = (ntohl hdr.msgLen).toNat := by
  rw [announced, RpcHeader.load_store]

theorem cut_store (o : ByteOrder) (hdr : RpcHeader) {p : Bytes}
    (hn : (ntohl hdr.msgLen).toNat ≤ p.length) :
    (wireFraming o).cut (hdr.store o ++ p) =
      some (hdr.store o ++ p.take (ntohl hdr.msgLen).toNat, p.drop (ntohl hdr.msgLen).toNat) := by
  rw [Framing.cut_eq_some_iff, isFrame_iff, announced_store]
  refine ⟨by rw [List.append_assoc, List.take_append_drop], ?_⟩
  simp only [List.length_append, RpcHeader.store_length, List.length_take_of_le hn]
  exact ⟨Nat.le_add_right _ _, trivial⟩

theorem requestHeader_msgLen (seq : UInt32) (mlen tlvLen : Nat) :
    (ntohl (requestHeader seq mlen tlvLen).msgLen).toNat = (mlen + tlvLen) % 2 ^ 32 := by
  simp [requestHeader, UInt32.toNat_ofNat']

theorem requestHeader_methodLen (seq : UInt32) {mlen : Nat} (hmlen : mlen ≤ 127) (tlvLen : Nat) :
    (ntohs (requestHeader seq mlen tlvLen).methodLen).toNat = mlen := by
  simp only [requestHeader, ntohs_htons]
  exact UInt16.toNat_ofNat_of_lt' (by change mlen < 2 ^ 16; omega)

theorem requestOf_short (h : Host) (seq : UInt32) {mlen tlvLen : Nat} (hmlen : mlen ≤ 127)
    (hk : (mlen + tlvLen) % 2 ^ 32 < mlen) (p : Bytes) (len : Nat) :
    requestOf h ((requestHeader seq mlen tlvLen).store h.order ++ p) len = none := by
  unfold requestOf
  simp only [RpcHeader.load_store, requestHeader_msgLen, requestHeader_methodLen seq hmlen, if_pos hk,
    ite_self]

/-- What the receiver takes from a request message that its sender built. -/
theorem requestOf_request (h : Host) (seq : UInt32) {name tlv : Bytes}
    (hname : 1 ≤ strlen name ∧ strlen name ≤ 127) {k : Nat}
    (hk : (strlen name + tlv.length) % 2 ^ 32 = strlen name + k)
    (hlt : sizeofRpcHeader + (strlen name + k) < 2 ^ h.word.bits) :
    requestOf h
        ((requestHeader seq (strlen name) tlv.length).store h.order ++ (cstr name ++ tlv.take k))
        (sizeofRpcHeader + (strlen name + k)) =
      some ⟨seq, cstr name, tlv.take k, k⟩ := by
  have hmsg := requestHeader_msgLen seq (strlen name) tlv.length
  have hmeth := requestHeader_methodLen seq hname.2 tlv.length
  rw [hk] at hmsg
  unfold requestOf
  rw [if_neg (by omega)]
  simp only [RpcHeader.load_store, hmsg, hmeth, WordSize.sizeT_of_lt hlt]
  rw [if_neg (by omega), if_neg (by simp only [methodCap]; omega), if_neg (by omega)]
  rw [List.drop_left' (RpcHeader.store_length _ _), List.take_left' (length_cstr name),
    List.drop_left' (length_cstr name), Nat.add_sub_cancel_left]
  simp [requestHeader]

end CcRpc
