import CcRpc.Serving

/-!
# What serving a request logs

Serving adds at most two events to the log: the run of the handler and then the response. The
response depends on the node through its transport, the allocator and what the callbacks left.
-/

namespace CcRpc

variable {h : Host} {ω : Type} {E : Env}

/-- What `rpc_send_response_tlv` hands to the transport, as an event. -/
def responseEvents (E : Env) (t : Nat) (seq : UInt32) (status : RpcStatus) (tlv : Option Bytes)
    (tlvLen : Nat) (n : Node h ω) : List Event :=
  if (n.transports t).hasSend ∧ E.heapMalloc n.mallocs then
    ((responseMessage h seq status.code tlv tlvLen).map fun msg =>
      Event.sent t msg (E.send n.sends msg)).toList
  else []

theorem rpcSendResponseTlv_events (t : Nat) (seq : UInt32) (status : RpcStatus) (tlv : Option Bytes)
    (tlvLen : Nat) (n : Node h ω) :
    (rpcSendResponseTlv E t seq status tlv tlvLen n).2.log =
      n.log ++ responseEvents E t seq status tlv tlvLen n := by
  unfold rpcSendResponseTlv responseEvents
  dsimp only [Node.heapMalloc]
  by_cases hsend : (n.transports t).hasSend = true
  · by_cases hmalloc : E.heapMalloc n.mallocs = true
    · rw [if_pos hsend, if_pos hmalloc, if_pos ⟨hsend, hmalloc⟩]
      cases responseMessage h seq status.code tlv tlvLen with
      | none => simp [Node.faulted]
      | some msg => simp [Node.send, Node.record]
    · rw [if_pos hsend, if_neg hmalloc, if_neg fun hboth => hmalloc hboth.2]
      simp
  · rw [if_neg hsend, if_neg fun hboth => hsend hboth.1]
    simp

theorem ran_not_mem_responseEvents {t : Nat} {seq : UInt32} {status : RpcStatus}
    {tlv : Option Bytes} {tlvLen : Nat} {n : Node h ω} (name : Bytes) (param : (s : Schema) × Struct s) :
    Event.ran name param ∉ responseEvents E t seq status tlv tlvLen n := by
  unfold responseEvents
  split
  · cases responseMessage h seq status.code tlv tlvLen with
    | none => simp
    | some msg => simp
  · simp

theorem beforeResponse_events (m : MethodEntry ω) (req : Request) (n : Node h ω) :
    (beforeResponse E m req n).2.log = n.log ∨ m.handler ≠ none ∧ ∃ param,
      (beforeResponse E m req n).2.log = n.log ++ [.ran (cstr n.method) ⟨m.params, param⟩] := by
  have hparse : (runParser E m req n).2.log = n.log ∧ (runParser E m req n).2.method = n.method := by
    unfold runParser
    split
    · split <;> exact ⟨rfl, rfl⟩
    · exact ⟨rfl, rfl⟩
  have hencode : ∀ status result (k : Node h ω), (runEncoder m status result k).2.log = k.log := by
    intro status result k
    unfold runEncoder
    dsimp only
    split
    · rfl
    · split
      · split <;> rfl
      · rfl
  unfold beforeResponse
  generalize runParser E m req n = x at hparse
  obtain ⟨parsed, n₁⟩ := x
  cases parsed with
  | none => exact .inl hparse.1
  | some parsed =>
    obtain ⟨status, param⟩ := parsed
    dsimp only at hparse ⊢
    rw [hencode]
    unfold runHandler
    cases hhandler : m.handler with
    | none => exact .inl hparse.1
    | some handler =>
      dsimp only
      split
      · apply Or.inr
        refine ⟨Option.some_ne_none _, param, ?_⟩
        rw [← hparse.1, ← hparse.2]
        rfl
      · exact .inl hparse.1

section Ways

variable {t : Nat} {msg : Bytes} {len : Nat} {n : Node h ω}

theorem rpcHandleRequest_of_none (hreq : requestOf h msg len = none) :
    rpcHandleRequest E t msg len n = n := by
  unfold rpcHandleRequest
  rw [hreq]

theorem rpcHandleRequest_unknown {req : Request} (hreq : requestOf h msg len = some req)
    (hget : n.methods.get req.name = none) :
    (rpcHandleRequest E t msg len n).log =
      n.log ++ responseEvents E t req.seq .methodNotFound none 0 (n.storeMethod req.name) := by
  unfold rpcHandleRequest
  rw [hreq]
  dsimp only
  rw [get_storeMethod, hget]
  exact rpcSendResponseTlv_events t req.seq .methodNotFound none 0 (n.storeMethod req.name)

theorem rpcHandleRequest_found {req : Request} {m : MethodEntry ω}
    (hreq : requestOf h msg len = some req) (hget : n.methods.get req.name = some m) :
    (rpcHandleRequest E t msg len n).log =
      match beforeResponse E m req (n.storeMethod req.name) with
      | (none, n') => n'.log
      | (some (status, respLen), n') => n'.log ++ responseEvents E t req.seq status
          (if status = .ok ∧ 0 < respLen then some n'.respTlv else none)
          (if status = .ok then respLen else 0) n' := by
  unfold rpcHandleRequest
  rw [hreq]
  dsimp only
  rw [get_storeMethod, hget]
  dsimp only
  rw [serve_log]
  generalize beforeResponse E m req (n.storeMethod req.name) = x
  obtain ⟨encoded, n'⟩ := x
  cases encoded with
  | none => rfl
  | some encoded => exact rpcSendResponseTlv_events _ _ _ _ _ _

/-- A request adds to the log the run of at most one handler, the one it found, and at most one
response. -/
theorem rpcHandleRequest_ran {name : Bytes} {param : (s : Schema) × Struct s} {l : List Event}
    (hlog : (rpcHandleRequest E t msg len n).log = n.log ++ l) (hran : .ran name param ∈ l) :
    ∃ req m, requestOf h msg len = some req ∧ n.methods.get req.name = some m ∧ m.handler ≠ none ∧
      name = cstr req.name := by
  cases hreq : requestOf h msg len with
  | none =>
    rw [rpcHandleRequest_of_none hreq, List.self_eq_append_right] at hlog
    rw [hlog] at hran
    cases hran
  | some req =>
    cases hget : n.methods.get req.name with
    | none =>
      rw [rpcHandleRequest_unknown hreq hget, List.append_cancel_left_eq] at hlog
      rw [← hlog] at hran
      exact absurd hran (ran_not_mem_responseEvents name param)
    | some m =>
      have hname : cstr (n.storeMethod req.name).method = cstr req.name := cstr_append_zero _ _
      have hevents := beforeResponse_events (E := E) m req (n.storeMethod req.name)
      rw [rpcHandleRequest_found hreq hget] at hlog
      generalize beforeResponse E m req (n.storeMethod req.name) = x at hlog hevents
      obtain ⟨encoded, n'⟩ := x
      -- whatever follows the handler's run is a response
      have hsplit : ∃ l', n'.log ++ l' = n.log ++ l ∧ .ran name param ∉ l' := by
        cases encoded with
        | none => exact ⟨[], by rw [List.append_nil]; exact hlog, List.not_mem_nil⟩
        | some encoded => exact ⟨_, hlog, ran_not_mem_responseEvents name param⟩
      obtain ⟨l', hl', hnot⟩ := hsplit
      cases hevents with
      | inl hsame =>
        have hl : n.log ++ l' = n.log ++ l := by
          rw [← hl']
          exact congrArg (· ++ l') hsame.symm
        rw [List.append_cancel_left_eq] at hl
        rw [← hl] at hran
        exact absurd hran hnot
      | inr hrun =>
        obtain ⟨hhandler, p, hadded⟩ := hrun
        have hl : n.log ++ (.ran (cstr req.name) ⟨m.params, p⟩ :: l') = n.log ++ l := by
          rw [← hl', ← hname]
          dsimp only at hadded
          rw [hadded, List.append_assoc]
          rfl
        rw [List.append_cancel_left_eq] at hl
        rw [← hl, List.mem_cons] at hran
        cases hran with
        | inl heq =>
          rw [Event.ran.injEq] at heq
          exact ⟨req, m, rfl, hget, hhandler, heq.1⟩
        | inr htail => exact absurd htail hnot

end Ways

namespace MethodEntry

/-- What the parser makes of a request. Without one the struct stays as `memset` made it. -/
def param (m : MethodEntry ω) (ok : Nat → Bool) (req : Request) : Option (Int × Struct m.params) :=
  match m.parseParam with
  | none => some (0, Struct.zero m.params)
  | some parse => parse ok req.tlv req.tlvLen

/-- What the handler makes of the struct. Without one the result stays as `memset` made it. -/
def result (m : MethodEntry ω) (p : Struct m.params) (w : ω) : Int × Struct m.results × ω :=
  match m.handler with
  | none => (0, Struct.zero m.results, w)
  | some handler => handler p (Struct.zero m.results) w

/-- The status and the payload of the response; `none` when a callback does not return. -/
def answer (m : MethodEntry ω) (ok : Nat → Bool) (req : Request) (w : ω) :
    Option (RpcStatus × Bytes) :=
  match m.param ok req with
  | none => none
  | some (rc, p) =>
    if rc ≠ 0 then some (.invalidParams, [])
    else if (m.result p w).1 ≠ 0 then some (.internalError, [])
    else
      match m.encodeResult with
      | none => some (.ok, List.replicate rpcMaxResultTlvSize 0)
      | some encode =>
        match encode (m.result p w).2.1 (List.replicate rpcMaxResultTlvSize 0) rpcMaxResultTlvSize with
        | none => none
        | some (rc, buf, respLen) =>
          if rc ≠ 0 then some (.internalError, []) else some (.ok, buf.take respLen)

section Rows

variable {m : MethodEntry ω} {ok : Nat → Bool} {req : Request} {w : ω} {rc : Int}
  {p : Struct m.params}

theorem answer_rejected (hparam : m.param ok req = some (rc, p)) (hrc : rc ≠ 0) :
    m.answer ok req w = some (.invalidParams, []) := by
  unfold answer
  rw [hparam]
  exact if_pos hrc

theorem answer_handlerFailed (hparam : m.param ok req = some (0, p))
    (hresult : (m.result p w).1 ≠ 0) : m.answer ok req w = some (.internalError, []) := by
  unfold answer
  rw [hparam]
  exact if_pos hresult

theorem answer_encoded (hparam : m.param ok req = some (0, p)) (hresult : (m.result p w).1 = 0)
    {encode : Struct m.results → Bytes → Nat → Option (Int × Bytes × Nat)}
    (hencode : m.encodeResult = some encode) {buf : Bytes} {respLen : Nat}
    (hbuf : encode (m.result p w).2.1 (List.replicate rpcMaxResultTlvSize 0) rpcMaxResultTlvSize =
      some (0, buf, respLen)) :
    m.answer ok req w = some (.ok, buf.take respLen) := by
  unfold answer
  rw [hparam]
  dsimp only
  rw [if_neg (by decide), if_neg (not_not.mpr hresult), hencode]
  dsimp only
  rw [hbuf]
  rfl

end Rows

/-- The handler runs on what the parser accepted. -/
def runs (m : MethodEntry ω) (ok : Nat → Bool) (req : Request) : List Event :=
  match m.handler, m.param ok req with
  | some _, some (rc, p) => if rc ≠ 0 then [] else [.ran (cstr req.name) ⟨m.params, p⟩]
  | _, _ => []

/-- How often the parser asks for memory. -/
def parserMallocs (m : MethodEntry ω) : Nat := if m.parseParam.isSome then m.params.length else 0

/-- The encoder keeps to the buffer it is given and reports no more than it holds. -/
def EncodesWithin (m : MethodEntry ω) : Prop :=
  ∀ encode, m.encodeResult = some encode → ∀ r buf cap rc buf' respLen,
    encode r buf cap = some (rc, buf', respLen) → buf'.length = buf.length ∧ respLen ≤ buf'.length

end MethodEntry

/-- A response as it is sent. -/
def responseFrame (o : ByteOrder) (seq : UInt32) (status : RpcStatus) (data : Bytes) : Bytes :=
  (responseHeader seq status.code data.length).store o ++ data

theorem runParser_eq {m : MethodEntry ω} (hfits : m.Fits h.word) (req : Request) (n : Node h ω) :
    runParser E m req n =
      ((m.param (fun i => E.heapMalloc (n.mallocs + i)) req).map fun (rc, p) =>
        (if rc ≠ 0 then .invalidParams else .ok, p),
        { n with mallocs := n.mallocs + m.parserMallocs }) := by
  unfold runParser MethodEntry.param MethodEntry.parserMallocs
  rw [if_pos hfits]
  cases m.parseParam with
  | none => rfl
  | some parse => rfl

theorem runHandler_ok (m : MethodEntry ω) (p : Struct m.params) (n : Node h ω) :
    ∃ n', runHandler m .ok p n =
        (if (m.result p n.world).1 ≠ 0 then .internalError else .ok, (m.result p n.world).2.1, n') ∧
      n'.mallocs = n.mallocs ∧ n'.sends = n.sends ∧ n'.transports = n.transports ∧
      n'.log = n.log ++ (m.handler.map fun _ => Event.ran (cstr n.method) ⟨m.params, p⟩).toList := by
  unfold runHandler MethodEntry.result
  cases m.handler with
  | none => exact ⟨n, rfl, rfl, rfl, rfl, (List.append_nil _).symm⟩
  | some handler => exact ⟨_, rfl, rfl, rfl, rfl, rfl⟩

theorem runHandler_failed (m : MethodEntry ω) {status : RpcStatus} (hstatus : status ≠ .ok)
    (p : Struct m.params) (n : Node h ω) :
    runHandler m status p n = (status, Struct.zero m.results, n) := by
  unfold runHandler
  cases m.handler with
  | none => rfl
  | some handler => exact if_neg hstatus

theorem runEncoder_failed (m : MethodEntry ω) {status : RpcStatus} (hstatus : status ≠ .ok)
    (r : Struct m.results) (n : Node h ω) :
    runEncoder m status r n = (some (status, rpcMaxResultTlvSize),
      { n with respTlv := List.replicate rpcMaxResultTlvSize 0 }) := by
  unfold runEncoder
  cases m.encodeResult with
  | none => rfl
  | some encode => exact if_neg hstatus

/-- With this status and length the response carries `data`. -/
structure Hands (status : RpcStatus) (respLen : Nat) (respTlv data : Bytes) : Prop where
  length : (if status = .ok then respLen else 0) = data.length
  bytes : ((if status = .ok ∧ 0 < respLen then some respTlv else none).getD []).take data.length = data

theorem hands_failed {status : RpcStatus} (hstatus : status ≠ .ok) (respLen : Nat) (respTlv : Bytes) :
    Hands status respLen respTlv [] := by
  refine ⟨if_neg hstatus, ?_⟩
  rw [List.length_nil, List.take_zero]

theorem hands_ok {respLen : Nat} {respTlv : Bytes} (hle : respLen ≤ respTlv.length) :
    Hands .ok respLen respTlv (respTlv.take respLen) := by
  have hlength : (respTlv.take respLen).length = respLen := List.length_take_of_le hle
  refine ⟨by rw [hlength, if_pos rfl], ?_⟩
  rw [hlength]
  by_cases hpos : 0 < respLen
  · rw [if_pos ⟨rfl, hpos⟩]
    rfl
  · have hzero : respLen = 0 := by omega
    rw [hzero, List.take_zero, List.take_zero]

theorem runEncoder_ok {m : MethodEntry ω} (hwithin : m.EncodesWithin) (r : Struct m.results)
    (n : Node h ω) :
    ∃ n', (runEncoder m .ok r n).2 = n' ∧ n'.log = n.log ∧ n'.mallocs = n.mallocs ∧
      n'.sends = n.sends ∧ n'.transports = n.transports ∧
      match m.encodeResult with
      | none => (runEncoder m .ok r n).1 = some (.ok, rpcMaxResultTlvSize) ∧
          n'.respTlv = List.replicate rpcMaxResultTlvSize 0
      | some encode =>
        match encode r (List.replicate rpcMaxResultTlvSize 0) rpcMaxResultTlvSize with
        | none => (runEncoder m .ok r n).1 = none
        | some (rc, buf, respLen) => n'.respTlv = buf ∧ buf.length = rpcMaxResultTlvSize ∧
            respLen ≤ buf.length ∧
            (runEncoder m .ok r n).1 =
              some (if rc ≠ 0 then (.internalError, 0) else (.ok, respLen)) := by
  unfold runEncoder
  dsimp only
  cases hencode : m.encodeResult with
  | none => exact ⟨_, rfl, rfl, rfl, rfl, rfl, rfl, rfl⟩
  | some encode =>
    dsimp only
    rw [if_pos rfl]
    cases hbuf : encode r (List.replicate rpcMaxResultTlvSize 0) rpcMaxResultTlvSize with
    | none => exact ⟨_, rfl, rfl, rfl, rfl, rfl, rfl⟩
    | some x =>
      obtain ⟨rc, buf, respLen⟩ := x
      obtain ⟨hlength, hle⟩ := hwithin encode hencode r _ _ rc buf respLen hbuf
      rw [List.length_replicate] at hlength
      exact ⟨_, rfl, rfl, rfl, rfl, rfl, rfl, hlength, hle, rfl⟩

theorem beforeResponse_unfit {m : MethodEntry ω} (hfits : ¬ m.Fits h.word) (req : Request) (n : Node h ω) :
    beforeResponse E m req n = (none, n) := by
  unfold beforeResponse runParser
  rw [if_neg hfits]

/-- Everything up to the response: the handler's run, and the answer. -/
theorem beforeResponse_answer {m : MethodEntry ω} (hfits : m.Fits h.word) (hwithin : m.EncodesWithin)
    (req : Request) {n : Node h ω} (hname : cstr n.method = cstr req.name) :
    ∃ n', (beforeResponse E m req n).2 = n' ∧
      n'.log = n.log ++ m.runs (fun i => E.heapMalloc (n.mallocs + i)) req ∧
      n'.mallocs = n.mallocs + m.parserMallocs ∧ n'.sends = n.sends ∧
      n'.transports = n.transports ∧
      match m.answer (fun i => E.heapMalloc (n.mallocs + i)) req n.world with
      | none => (beforeResponse E m req n).1 = none
      | some (status, data) => data.length ≤ rpcMaxResultTlvSize ∧
        ∃ respLen, (beforeResponse E m req n).1 = some (status, respLen) ∧
          Hands status respLen n'.respTlv data := by
  unfold beforeResponse MethodEntry.answer MethodEntry.runs
  rw [runParser_eq hfits]
  cases m.param (fun i => E.heapMalloc (n.mallocs + i)) req with
  | none =>
    refine ⟨_, rfl, ?_, rfl, rfl, rfl, rfl⟩
    cases m.handler <;> exact (List.append_nil _).symm
  | some x =>
    obtain ⟨rc, p⟩ := x
    dsimp only [Option.map_some]
    by_cases hrc : rc = 0
    · rw [if_neg (not_not.mpr hrc), if_neg (not_not.mpr hrc)]
      obtain ⟨n₁, hrun, hmallocs, hsends, htransports, hlog⟩ := runHandler_ok m p
        { n with mallocs := n.mallocs + m.parserMallocs }
      rw [hrun]
      dsimp only at hlog hmallocs hsends htransports ⊢
      have hran : n₁.log = n.log ++ (match m.handler, some (rc, p) with
          | some _, some (rc, p) => if rc ≠ 0 then [] else [.ran (cstr req.name) ⟨m.params, p⟩]
          | _, _ => []) := by
        rw [hlog, hname]
        cases m.handler with
        | none => rfl
        | some handler => simp [hrc]
      by_cases hfail : (m.result p n.world).1 = 0
      · rw [if_neg (not_not.mpr hfail), if_neg (not_not.mpr hfail)]
        obtain ⟨n₂, hn₂, hlog₂, hmallocs₂, hsends₂, htransports₂, hencoded⟩ :=
          runEncoder_ok hwithin (m.result p n.world).2.1 n₁
        refine ⟨n₂, hn₂, hlog₂.trans hran, hmallocs₂.trans hmallocs, hsends₂.trans hsends,
          htransports₂.trans htransports, ?_⟩
        cases hencode : m.encodeResult with
        | none =>
          rw [hencode] at hencoded
          dsimp only at hencoded ⊢
          have hwhole : rpcMaxResultTlvSize ≤ n₂.respTlv.length := by
            rw [hencoded.2, List.length_replicate]
          have hhands := hands_ok hwhole
          rw [hencoded.2, List.take_of_length_le (by rw [List.length_replicate])] at hhands
          refine ⟨by rw [List.length_replicate], _, hencoded.1, ?_⟩
          rw [hencoded.2]
          exact hhands
        | some encode =>
          rw [hencode] at hencoded
          dsimp only at hencoded ⊢
          cases hbuf : encode (m.result p n.world).2.1 (List.replicate rpcMaxResultTlvSize 0)
              rpcMaxResultTlvSize with
          | none =>
            rw [hbuf] at hencoded
            exact hencoded
          | some y =>
            obtain ⟨rc', buf, respLen⟩ := y
            rw [hbuf] at hencoded
            obtain ⟨htlv, hlength, hle, hsome⟩ := hencoded
            rw [hsome, htlv]
            dsimp only
            by_cases hrc' : rc' = 0
            · rw [if_neg (not_not.mpr hrc'), if_neg (not_not.mpr hrc')]
              refine ⟨?_, respLen, rfl, hands_ok hle⟩
              rw [List.length_take_of_le hle, ← hlength]
              exact hle
            · rw [if_pos hrc', if_pos hrc']
              exact ⟨Nat.zero_le _, 0, rfl, hands_failed (by decide) 0 buf⟩
      · rw [if_pos hfail, if_pos hfail, runEncoder_failed m (by decide)]
        refine ⟨_, rfl, hran, hmallocs, hsends, htransports, Nat.zero_le _, _, rfl, ?_⟩
        exact hands_failed (by decide) _ _
    · rw [if_pos hrc, if_pos hrc, runHandler_failed m (by decide)]
      dsimp only
      rw [runEncoder_failed m (by decide)]
      refine ⟨_, rfl, ?_, rfl, rfl, rfl, Nat.zero_le _, _, rfl, hands_failed (by decide) _ _⟩
      cases m.handler with
      | none => exact (List.append_nil _).symm
      | some handler =>
        dsimp only
        rw [if_pos hrc, List.append_nil]

theorem Hands.responseMessage {status : RpcStatus} {respLen : Nat} {respTlv data : Bytes}
    (hhands : Hands status respLen respTlv data) (hdata : data.length ≤ rpcMaxResultTlvSize)
    (seq : UInt32) :
    CcRpc.responseMessage h seq status.code (if status = .ok ∧ 0 < respLen then some respTlv else none)
      (if status = .ok then respLen else 0) = some (responseFrame h.order seq status data) := by
  have hword := h.word.two_pow_le
  have hfits : sizeofRpcHeader + data.length < 2 ^ h.word.bits := by
    simp only [sizeofRpcHeader, rpcMaxResultTlvSize] at hdata ⊢
    omega
  rw [hhands.length]
  exact responseMessage_eq h seq status.code hhands.bytes hfits

/-- The response of the given status and payload, if the transport has a `send` and the `k`-th
`heap_malloc` succeeds. -/
def answerEvents (E : Env) (t : Nat) (seq : UInt32) (k : Nat) (n : Node h ω) (status : RpcStatus)
    (data : Bytes) : List Event :=
  if (n.transports t).hasSend ∧ E.heapMalloc k then
    [.sent t (responseFrame h.order seq status data)
      (E.send n.sends (responseFrame h.order seq status data))]
  else []

theorem responseEvents_eq {t : Nat} {seq : UInt32} {status : RpcStatus} {tlv : Option Bytes}
    {tlvLen : Nat} {n n' : Node h ω} {data : Bytes}
    (hmsg : CcRpc.responseMessage h seq status.code tlv tlvLen =
      some (responseFrame h.order seq status data))
    (hsends : n'.sends = n.sends) (htransports : n'.transports = n.transports) :
    responseEvents E t seq status tlv tlvLen n' = answerEvents E t seq n'.mallocs n status data := by
  unfold responseEvents answerEvents
  rw [hmsg, hsends, htransports]
  rfl

section Answers

variable {t : Nat} {msg : Bytes} {len : Nat} {n : Node h ω} {req : Request}

theorem rpcHandleRequest_notFound (hreq : requestOf h msg len = some req)
    (hget : n.methods.get req.name = none) :
    (rpcHandleRequest E t msg len n).log =
      n.log ++ answerEvents E t req.seq n.mallocs n .methodNotFound [] := by
  have hhands : Hands .methodNotFound 0 [] [] := hands_failed (by decide) 0 []
  have hmsg := hhands.responseMessage (h := h) (Nat.zero_le _) req.seq
  have hevents :
      responseEvents E t req.seq .methodNotFound (some []) 0 (n.storeMethod req.name) = _ :=
    responseEvents_eq hmsg rfl rfl
  rw [rpcHandleRequest_unknown hreq hget]
  exact congrArg (n.log ++ ·) hevents

theorem runs_cases (m : MethodEntry ω) (ok : Nat → Bool) (req : Request) :
    m.runs ok req = [] ∨ ∃ param, m.runs ok req = [.ran (cstr req.name) param] := by
  unfold MethodEntry.runs
  split
  · split
    · exact .inl rfl
    · exact .inr ⟨_, rfl⟩
  · exact .inl rfl

/-- A request for a method in the table: the handler's run, and the answer. -/
theorem rpcHandleRequest_answer {m : MethodEntry ω} (hfits : m.Fits h.word) (hwithin : m.EncodesWithin)
    (hreq : requestOf h msg len = some req) (hget : n.methods.get req.name = some m) :
    (rpcHandleRequest E t msg len n).log =
      n.log ++ (m.runs (fun i => E.heapMalloc (n.mallocs + i)) req ++
        match m.answer (fun i => E.heapMalloc (n.mallocs + i)) req n.world with
        | none => []
        | some (status, data) =>
          answerEvents E t req.seq (n.mallocs + m.parserMallocs) n status data) := by
  have hname : cstr (n.storeMethod req.name).method = cstr req.name := cstr_append_zero _ _
  obtain ⟨n', hn', hlog, hmallocs, hsends, htransports, hanswer⟩ :=
    beforeResponse_answer (E := E) hfits hwithin req hname
  rw [rpcHandleRequest_found hreq hget]
  change match m.answer (fun i => E.heapMalloc (n.mallocs + i)) req n.world with
    | none => _
    | some (status, data) => _ at hanswer
  generalize beforeResponse E m req (n.storeMethod req.name) = x at hn' hanswer
  obtain ⟨encoded, n''⟩ := x
  dsimp only at hn' hanswer
  subst hn'
  cases hans : m.answer (fun i => E.heapMalloc (n.mallocs + i)) req n.world with
  | none =>
    rw [hans] at hanswer
    dsimp only at hanswer
    subst hanswer
    dsimp only
    rw [List.append_nil]
    exact hlog
  | some y =>
    obtain ⟨status, data⟩ := y
    rw [hans] at hanswer
    obtain ⟨hdata, respLen, hsome, hhands⟩ := hanswer
    subst hsome
    dsimp only
    have hmsg := hhands.responseMessage (h := h) hdata req.seq
    rw [responseEvents_eq hmsg hsends htransports, hmallocs, hlog, List.append_assoc]
    rfl

end Answers

theorem responseIn_responseFrame (h : Host) (seq : UInt32) (status : RpcStatus) {data : Bytes}
    (hdata : data.length ≤ rpcMaxResultTlvSize) :
    responseIn h (responseFrame h.order seq status data)
        (responseFrame h.order seq status data).length =
      some ⟨seq, status.code, data, data.length⟩ := by
  have hword := h.word.two_pow_le
  simp only [rpcMaxResultTlvSize] at hdata
  have hload := RpcHeader.load_store h.order (responseHeader seq status.code data.length) data
  have hlength : (responseFrame h.order seq status data).length = sizeofRpcHeader + data.length := by
    rw [responseFrame, List.length_append, RpcHeader.store_length]
  have hmsgLen : (ntohl (responseHeader seq status.code data.length).msgLen).toNat = data.length := by
    simp only [responseHeader, ntohl_htonl]
    exact UInt32.toNat_ofNat_of_lt' (by change _ < 2 ^ 32; omega)
  have hresp : isResponse h (responseFrame h.order seq status data) = true := by
    unfold isResponse responseFrame
    rw [hload]
    exact (by decide : (ntohs (htons 0) == 0) = true)
  have hsize : h.word.sizeT (sizeofRpcHeader + data.length) = sizeofRpcHeader + data.length := by
    apply WordSize.sizeT_of_lt
    simp only [sizeofRpcHeader]
    omega
  unfold responseIn responseOf
  rw [if_pos hresp, hlength, if_neg (by omega)]
  simp only [responseFrame, hload, hmsgLen, hsize, Nat.lt_irrefl, if_false,
    List.drop_left' (RpcHeader.store_length h.order _)]
  simp [responseHeader]

end CcRpc
