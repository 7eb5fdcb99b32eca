import CcRpc.Answering
import CcRpc.ReceivedStream

/-!
# Serving one request of a generated method

A node that has a generated method runs its handler on the struct that was encoded in the request and
sends one response with what the handler returned. A node that has not sends a response that says so.
In a run this happens for each request that arrives, whatever else arrives with it.
-/

namespace CcRpc

variable {h h₁ h₂ : Host} {ω : Type} {E : Env}

/-- A method of the list that both sides are generated from. No code is generated for an `i32` that
is to be sent. -/
structure RemoteMethod where
  rpcname : Bytes
  params : Schema
  results : Schema
  named : 1 ≤ rpcname.length
  room : rpcname.length ≤ 127
  nulFree : (0 : UInt8) ∉ rpcname
  emitsParams : .i32 ∉ params
  emitsResults : .i32 ∉ results

theorem RemoteMethod.strlen_rpcname (m : RemoteMethod) : strlen m.rpcname = m.rpcname.length := by
  rw [← length_cstr, cstr_of_not_mem m.nulFree]

/-- Both structs of the method fit the static buffers on a host of word size `w`. -/
def RemoteMethod.Fits (m : RemoteMethod) (w : WordSize) : Prop :=
  m.params.sizeof w ≤ rpcMaxParamSize ∧ m.results.sizeof w ≤ rpcMaxResultSize

/-- What the provider of a method supplies, and what its `free` functions do to the handlers' world. -/
structure Provider (m : RemoteMethod) (ω : Type) where
  handler : Struct m.params → Struct m.results → ω → Int × Struct m.results × ω
  freeParam : Struct m.params → ω → ω
  freeResult : Struct m.results → ω → ω

/-- The entry that `rpc_register_X` makes. -/
def Provider.entry (h : Host) {m : RemoteMethod} (x : Provider m ω) : MethodEntry ω where
  params := m.params
  results := m.results
  parseParam := some (parseStruct h.order m.params)
  handler := some x.handler
  encodeResult := some (encodeResult h.order m.results)
  freeParam := some x.freeParam
  freeResult := some x.freeResult

theorem Provider.entry_fits {m : RemoteMethod} (x : Provider m ω) {w : WordSize} (hfits : m.Fits w) :
    (x.entry h).Fits w :=
  hfits

/-- A field that a TLV can carry: a string that is not NULL and has no NUL in it, and no more than
65535 bytes. -/
structure FieldType.Carried (o : ByteOrder) (t : FieldType) (v : t.Value) : Prop where
  nonNull : t.NonNull v
  nulFree : t.NulFree v
  short : t.Short o v

theorem parseStruct_carried {o₁ o₂ : ByteOrder} (ho : o₁ = o₂) {s : Schema} {v : Struct s}
    (hv : v.All (FieldType.Carried o₁)) (m : Bytes) :
    parseStruct o₂ s allOk (Struct.wire o₁ s v ++ m) (Struct.wire o₁ s v).length = some (0, v) :=
  (parseStruct_cross_iff o₁ o₂ (hv.imp FieldType.Carried.nulFree) m).mpr
    (hv.imp fun hfield => ⟨hfield.nonNull, hfield.short, Or.inl ho⟩)

section Answer

variable {m : RemoteMethod}

/-- What came of a call: the handler's return value and result, or nothing without a handler. -/
abbrev Outcome (m : RemoteMethod) := Option (Int × Struct m.results)

/-- The outcome of a call on the spot. -/
def Provider.outcome (x : Option (Provider m ω)) (inp : Struct m.params) (w : ω) : Outcome m :=
  x.map fun x =>
    ((x.handler inp (Struct.zero m.results) w).1, (x.handler inp (Struct.zero m.results) w).2.1)

/-- The status and the TLV area of the response for an outcome. -/
def Outcome.answer (o : ByteOrder) : Outcome m → RpcStatus × Bytes
  | none => (.methodNotFound, [])
  | some (rc, r) => if rc ≠ 0 then (.internalError, []) else (.ok, Struct.wire o m.results r)

/-- The response for an outcome. -/
def Outcome.frame (o : ByteOrder) (seq : UInt32) (x : Outcome m) : Bytes :=
  (responseHeader seq (x.answer o).1.code (x.answer o).2.length).store o ++ (x.answer o).2

/-- A result that is returned with 0 can be carried and its TLVs take at most 4096 bytes. -/
def Outcome.Encodes (o : ByteOrder) (x : Outcome m) : Prop :=
  ∀ r, x = some (0, r) → r.All (FieldType.Carried o) ∧ Struct.tlvSize m.results r ≤ rpcMaxResultTlvSize

/-- The handler's run in the log. -/
def ranEvents (x : Option (Provider m ω)) (inp : Struct m.params) : List Event :=
  x.toList.map fun _ => .ran m.rpcname ⟨m.params, inp⟩

theorem Outcome.answer_ok (o : ByteOrder) (r : Struct m.results) :
    Outcome.answer o (some (0, r) : Outcome m) = (.ok, Struct.wire o m.results r) := by
  simp [answer]

theorem Outcome.answer_failed (o : ByteOrder) {rc : Int} (hrc : rc ≠ 0) (r : Struct m.results) :
    Outcome.answer o (some (rc, r) : Outcome m) = (.internalError, []) := by
  simp [answer, hrc]

theorem Outcome.answer_length {o : ByteOrder} {x : Outcome m} (hx : x.Encodes o) :
    (x.answer o).2.length ≤ rpcMaxResultTlvSize := by
  cases x with
  | none => exact Nat.zero_le _
  | some x =>
    obtain ⟨rc, r⟩ := x
    by_cases hrc : rc = 0
    · subst hrc
      rw [answer_ok, Struct.wire_length]
      exact (hx r rfl).2
    · rw [answer_failed o hrc]
      exact Nat.zero_le _

theorem rpcSendResponseTlv_granted (hE : E.Grants) {t : Nat} {n : Node h ω}
    (hsend : (n.transports t).hasSend = true) {seq : UInt32} {status : RpcStatus}
    {tlv : Option Bytes} {len : Nat} {msg : Bytes}
    (hmsg : responseMessage h seq status.code tlv len = some msg) :
    (rpcSendResponseTlv E t seq status tlv len n).2.log =
      n.log ++ [.sent t msg (E.send n.sends msg)] := by
  unfold rpcSendResponseTlv
  dsimp only [Node.heapMalloc]
  rw [if_pos hsend, hE, if_pos rfl, hmsg]
  rfl

/-- What the callbacks of a generated method leave for the response. -/
structure Prepared (o : ByteOrder) (x : Outcome m) (status : RpcStatus) (respTlv : Bytes)
    (respLen : Nat) : Prop where
  status_eq : status = (x.answer o).1
  length : (if status = .ok then respLen else 0) = (x.answer o).2.length
  data : ((if status = .ok ∧ 0 < respLen then some respTlv else none).getD []).take
    (x.answer o).2.length = (x.answer o).2

theorem prepared_ok {o : ByteOrder} (r : Struct m.results) (pad : Bytes) :
    Prepared o (some (0, r) : Outcome m) .ok (Struct.wire o m.results r ++ pad)
      (Struct.tlvSize m.results r) := by
  have hlength := Struct.wire_length o m.results r
  have hanswer := Outcome.answer_ok o r
  refine ⟨by rw [hanswer], by rw [hanswer, hlength, if_pos rfl], ?_⟩
  rw [hanswer]
  by_cases hpos : 0 < Struct.tlvSize m.results r
  · rw [if_pos ⟨rfl, hpos⟩, Option.getD_some, List.take_left]
  · have hnil : Struct.wire o m.results r = [] := by
      apply List.length_eq_zero_iff.mp
      omega
    rw [hnil, List.length_nil, List.take_zero]

theorem prepared_failed {o : ByteOrder} {rc : Int} (hrc : rc ≠ 0) (r : Struct m.results)
    (respTlv : Bytes) (respLen : Nat) :
    Prepared o (some (rc, r) : Outcome m) .internalError respTlv respLen := by
  have hanswer := Outcome.answer_failed o hrc r
  refine ⟨by rw [hanswer], by rw [hanswer]; rfl, ?_⟩
  rw [hanswer, List.length_nil, List.take_zero]

theorem beforeResponse_entry (hE : E.Grants) (hfits : m.Fits h.word) (x : Provider m ω) {req : Request}
    {inp : Struct m.params} (hparse : parseStruct h.order m.params allOk req.tlv req.tlvLen = some (0, inp))
    {n : Node h ω} (hname : cstr n.method = m.rpcname) (henc : (Provider.outcome (some x) inp n.world).Encodes h.order) :
    ∃ status respLen n', beforeResponse E (x.entry h) req n = (some (status, respLen), n') ∧
      n'.log = n.log ++ ranEvents (some x) inp ∧
      Prepared h.order (Provider.outcome (some x) inp n.world) status n'.respTlv respLen := by
  have hgranted : (fun i => E.heapMalloc (n.mallocs + i)) = allOk := by
    funext i
    exact hE _
  have hran : runParser E (x.entry h) req n =
      (some (.ok, inp), { n with mallocs := n.mallocs + m.params.length }) := by
    rw [runParser, if_pos (x.entry_fits hfits)]
    unfold Provider.entry
    simp only [hgranted, hparse, Option.map_some, ne_eq, not_true_eq_false, if_false]
  unfold beforeResponse
  rw [hran]
  dsimp only
  have houtcome : Provider.outcome (some x) inp n.world =
      some ((x.handler inp (Struct.zero m.results) n.world).1,
        (x.handler inp (Struct.zero m.results) n.world).2.1) := rfl
  rw [houtcome] at henc ⊢
  generalize hcall : x.handler inp (Struct.zero m.results) n.world = y at henc ⊢
  obtain ⟨rc, r, w⟩ := y
  dsimp only at henc ⊢
  unfold runHandler runEncoder Provider.entry
  simp only [hcall]
  by_cases hrc : rc = 0
  · subst hrc
    obtain ⟨-, hsize⟩ := henc r rfl
    have hencode := encodeResult_eq (o := h.order) m.emitsResults r
      (List.length_replicate (n := rpcMaxResultTlvSize) (a := 0))
    rw [if_pos hsize] at hencode
    simp only [ne_eq, not_true_eq_false, if_false, if_true, hencode]
    refine ⟨_, _, _, rfl, ?_, prepared_ok r _⟩
    simp [Node.record, ranEvents, hname]
  · simp only [ne_eq, hrc, not_false_eq_true, if_true, reduceCtorEq, if_false]
    refine ⟨_, _, _, rfl, ?_, prepared_failed hrc r _ _⟩
    simp [Node.record, ranEvents, hname]

/-- `rpc_handle_request` for a generated method that is registered, or that is not. -/
theorem rpcHandleRequest_answers (hE : E.Grants) (hfits : m.Fits h.word) {t : Nat} {msg tlv : Bytes}
    {len : Nat} {seq : UInt32} {n : Node h ω} (hsend : (n.transports t).hasSend = true) {x : Option (Provider m ω)}
    (hget : n.methods.get m.rpcname = x.map (Provider.entry h))
    (hreq : requestOf h msg len = some ⟨seq, m.rpcname, tlv, tlv.length⟩) {inp : Struct m.params}
    (hparse : x.isSome → parseStruct h.order m.params allOk tlv tlv.length = some (0, inp))
    (henc : (Provider.outcome x inp n.world).Encodes h.order) :
    ∃ ret, (rpcHandleRequest E t msg len n).log = n.log ++ (ranEvents x inp ++
      [.sent t ((Provider.outcome x inp n.world).frame h.order seq) ret]) := by
  have hlength := Outcome.answer_length henc
  have hword := h.word.two_pow_le
  have hroom : sizeofRpcHeader + ((Provider.outcome x inp n.world).answer h.order).2.length <
      2 ^ h.word.bits := by
    simp only [sizeofRpcHeader, rpcMaxResultTlvSize] at hlength ⊢
    omega
  unfold rpcHandleRequest
  rw [hreq]
  dsimp only
  rw [get_storeMethod, hget]
  cases x with
  | none =>
    have hnothing : ((none : Option Bytes).getD []).take ([] : Bytes).length = [] := rfl
    have hmsg := responseMessage_eq h seq RpcStatus.methodNotFound.code hnothing hroom
    have hlog := rpcSendResponseTlv_granted hE (n := n.storeMethod m.rpcname) hsend hmsg
    exact ⟨_, hlog⟩
  | some x =>
    have hname : cstr (n.storeMethod m.rpcname).method = m.rpcname := by
      unfold Node.storeMethod
      rw [cstr_append_zero, cstr_of_not_mem m.nulFree]
    let req : Request := ⟨seq, m.rpcname, tlv, tlv.length⟩
    have hparsed : parseStruct h.order m.params allOk req.tlv req.tlvLen = some (0, inp) := hparse rfl
    obtain ⟨status, respLen, n', hbefore, hlog, hprepared⟩ :=
      beforeResponse_entry hE hfits x hparsed (n := n.storeMethod m.rpcname) hname henc
    obtain ⟨hserves, -⟩ := beforeResponse_spec (E := E) (x.entry h) req (n.storeMethod m.rpcname)
    rw [hbefore] at hserves
    have hsend' : (n'.transports t).hasSend = true :=
      (congrArg Transport.hasSend (congrFun hserves.tables.transports t)).trans hsend
    change Prepared h.order (Provider.outcome (some x) inp n.world) _ _ _ at hprepared
    have hbuilt : responseMessage h seq status.code
        (if status = .ok ∧ 0 < respLen then some n'.respTlv else none)
        (if status = .ok then respLen else 0) =
          some ((Provider.outcome (some x) inp n.world).frame h.order seq) := by
      unfold Outcome.frame
      rw [hprepared.length, ← hprepared.status_eq]
      exact responseMessage_eq h seq status.code hprepared.data hroom
    refine ⟨E.send n'.sends ((Provider.outcome (some x) inp n.world).frame h.order seq), ?_⟩
    rw [Option.map_some]
    dsimp only
    rw [serve_log, hbefore]
    dsimp only
    rw [rpcSendResponseTlv_granted hE hsend' hbuilt, hlog, List.append_assoc]
    rfl

/-- A node handles the frame of a request from the host `h₁` of its own byte order. -/
theorem dispatch_handles (horder : h₁.order = h.order) {t : Nat} {seq : UInt32} {tlv f : Bytes}
    (hf : requestMessage h₁ seq m.rpcname tlv = some f) (hlen : m.rpcname.length + tlv.length < 2 ^ 32)
    (n : Node h ω) :
    requestOf h f f.length = some ⟨seq, m.rpcname, tlv, tlv.length⟩ ∧
      rpcDispatchMessage E t f f.length n =
        rpcHandleRequest E t f f.length (n.record (.dispatched t f f.length)) := by
  have hname := m.strlen_rpcname
  have hcross : RequestCrosses h₁.order h.order m.rpcname tlv.length := by
    refine ⟨horder, ?_, ?_, ?_⟩
    · rw [hname]
      exact m.named
    · rw [hname]
      exact m.room
    · rw [hname]
      exact hlen
  obtain ⟨hrequest, hreq⟩ := requestOf_of_crosses hf hcross
  rw [cstr_of_not_mem m.nulFree] at hreq
  have hlong : ¬ f.length < sizeofRpcHeader := by
    rw [requestMessage_eq_some hf, List.length_append, RpcHeader.store_length]
    omega
  refine ⟨hreq, ?_⟩
  unfold rpcDispatchMessage
  rw [if_neg hlong, hrequest, if_neg Bool.false_ne_true]

/-- A node takes the frame of a request for a generated method, runs the handler on the struct that was
encoded, once, and sends one response. -/
theorem dispatch_request (hE : E.Grants) (hfits : m.Fits h.word) (horder : h₁.order = h.order) {t : Nat}
    {seq : UInt32} {x : Option (Provider m ω)} {inp : Struct m.params}
    (hin : x.isSome → inp.All (FieldType.Carried h₁.order)) {f : Bytes}
    (hf : requestMessage h₁ seq m.rpcname (Struct.wire h₁.order m.params inp) = some f)
    (hlen : m.rpcname.length + Struct.tlvSize m.params inp < 2 ^ 32) {n : Node h ω}
    (hsend : (n.transports t).hasSend = true) (hget : n.methods.get m.rpcname = x.map (Provider.entry h))
    (henc : (Provider.outcome x inp n.world).Encodes h.order) :
    ∃ ret, (rpcDispatchMessage E t f f.length n).log = n.log ++ .dispatched t f f.length ::
      (ranEvents x inp ++ [.sent t ((Provider.outcome x inp n.world).frame h.order seq) ret]) := by
  obtain ⟨hreq, hdispatch⟩ := dispatch_handles (E := E) (t := t) horder hf
    (by rw [Struct.wire_length]; exact hlen) n
  have hparse : x.isSome → parseStruct h.order m.params allOk (Struct.wire h₁.order m.params inp)
      (Struct.wire h₁.order m.params inp).length = some (0, inp) := by
    intro hx
    have hparse := parseStruct_carried horder (hin hx) []
    rwa [List.append_nil] at hparse
  obtain ⟨ret, hlog⟩ := rpcHandleRequest_answers hE hfits (n := n.record (.dispatched t f f.length)) hsend
    hget hreq hparse henc
  refine ⟨ret, ?_⟩
  rw [hdispatch, hlog, Node.record, List.append_assoc]
  rfl

end Answer

end CcRpc
