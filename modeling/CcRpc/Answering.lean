import CcRpc.CrossHost
import CcRpc.Matching

/-!
# A request and its answer

A request that one node sends is dispatched by another. The receiver takes it for a request with the
same number, name and TLVs, and answers with one response of that number, when the method length it
reads is the length of the name and it is able to send.
-/

namespace CcRpc

variable {h h₁ h₂ : Host} {ω ω₁ : Type} {E E₁ : Env}

/-- The messages handed to a transport in this part of a log. -/
def sentIn (l : List Event) : List (Nat × Bytes) :=
  l.filterMap fun
    | .sent t msg _ => some (t, msg)
    | .dispatched .. | .ran .. => none

/-- `rpc_send_request_tlv` returns a success, and the transport has taken the whole frame `f`. -/
structure SendsFrame (E : Env) (t : Nat) (seq : UInt32) (name tlv : Bytes) (m : Node h ω) (f : Bytes) :
    Prop where
  returned : 0 ≤ (rpcSendRequestTlv E t seq name tlv m).1
  logged : (rpcSendRequestTlv E t seq name tlv m).2.log = m.log ++ [.sent t f f.length]

/-- The receiver `n` takes the frame for the request that was sent and answers it. -/
structure AnswersRequest (E : Env) (h₁ : Host) (t : Nat) (seq : UInt32) (name tlv f : Bytes)
    (n : Node h₂ ω) : Prop where
  request : isResponse h₂ f = false
  same : requestOf h₂ f f.length = some ⟨seq, cstr name, tlv, tlv.length⟩
  /-- No call of the receiver is completed. -/
  calls : (rpcDispatchMessage E t f f.length n).calls = n.calls
  /-- One response is sent, which the sender of the request takes for one with its number. -/
  answered : ∃ l msg r, (rpcDispatchMessage E t f f.length n).log = n.log ++ l ∧
    sentIn l = [(t, msg)] ∧ responseIn h₁ msg msg.length = some r ∧ r.seq = seq

/-- `rpc_handle_request` for a method it found, up to its call of `rpc_send_response_tlv`. -/
def beforeResponse (E : Env) (m : MethodEntry ω) (req : Request) (n : Node h ω) :
    Option (RpcStatus × Nat) × Node h ω :=
  match runParser E m req n with
  | (none, n) => (none, n)
  | (some (status, param), n) =>
    let (status, result, n) := runHandler m status param n
    runEncoder m status result n

/-- The transport has a `send`, the structs of the method fit their buffers and its callbacks return, the
response gets its memory, and the encoder reported a length within its buffer, which fits the message. -/
def CanAnswer (E : Env) (t : Nat) (req : Request) (n : Node h ω) : Prop :=
  (n.transports t).hasSend = true ∧
    match n.methods.get req.name with
    | none => E.heapMalloc n.mallocs = true
    | some m => ∃ status respLen n', beforeResponse E m req (n.storeMethod req.name) =
        (some (status, respLen), n') ∧ E.heapMalloc n'.mallocs = true ∧
          (status = .ok → respLen ≤ n'.respTlv.length ∧
            sizeofRpcHeader + respLen ≤ h.word.sizeT (sizeofRpcHeader + respLen))

@[simp] theorem sentIn_append (l l' : List Event) : sentIn (l ++ l') = sentIn l ++ sentIn l' :=
  List.filterMap_append ..

theorem beforeResponse_spec (m : MethodEntry ω) (req : Request) (n : Node h ω) :
    n.Serves (beforeResponse E m req n).2 ∧
      ∃ l, (beforeResponse E m req n).2.log = n.log ++ l ∧ sentIn l = [] := by
  have hparse := runParser_serves E m req n
  have hparseLog : (runParser E m req n).2.log = n.log := by
    unfold runParser
    split
    · split <;> rfl
    · rfl
  unfold beforeResponse
  split
  · next n₁ hp =>
    rw [hp] at hparse hparseLog
    exact ⟨hparse, [], by rw [List.append_nil]; exact hparseLog, rfl⟩
  · next status param n₁ hp =>
    rw [hp] at hparse hparseLog
    have hhandle := runHandler_serves m status param n₁
    have hencode := runEncoder_serves m (runHandler m status param n₁).1
      (runHandler m status param n₁).2.1 (runHandler m status param n₁).2.2
    have hencodeLog : (runEncoder m (runHandler m status param n₁).1
        (runHandler m status param n₁).2.1 (runHandler m status param n₁).2.2).2.log =
          (runHandler m status param n₁).2.2.log := by
      unfold runEncoder
      dsimp only
      split
      · rfl
      · split
        · split <;> rfl
        · rfl
    refine ⟨(hparse.trans hhandle).trans hencode, ?_⟩
    dsimp only
    rw [hencodeLog, ← hparseLog]
    unfold runHandler
    split
    · exact ⟨[], (List.append_nil _).symm, rfl⟩
    · split
      · exact ⟨[_], rfl, rfl⟩
      · exact ⟨[], (List.append_nil _).symm, rfl⟩

theorem memcpy_isSome {buf data : Bytes} {off : Nat} :
    (memcpy buf off data).isSome ↔ off + data.length ≤ buf.length := by
  unfold memcpy
  split
  · next hle => exact iff_of_true rfl hle
  · next hgt => exact iff_of_false Bool.false_ne_true hgt

/-- The message of a response begins with its header, which says its length modulo 4 GiB. -/
theorem responseMessage_begins {seq : UInt32} {status : UInt16} {tlv : Option Bytes} {len : Nat}
    {msg : Bytes} (hmsg : responseMessage h seq status tlv len = some msg) :
    (∃ rest, msg = (responseHeader seq status len).store h.order ++ rest) ∧
      sizeofRpcHeader ≤ msg.length ∧ (msg.length - sizeofRpcHeader) % 2 ^ 32 = len % 2 ^ 32 := by
  obtain ⟨msg₀, hheader, hdata⟩ := Option.bind_eq_some_iff.mp hmsg
  have hsize := memcpy_length hheader
  have hroom := memcpy_isSome.mp (Option.isSome_iff_exists.mpr ⟨_, hheader⟩)
  have hbegin := take_of_memcpy hheader
  rw [List.length_replicate] at hsize hroom
  rw [RpcHeader.store_length] at hroom hbegin
  rw [Nat.zero_add] at hroom
  rw [Nat.zero_add, List.take_zero, List.nil_append] at hbegin
  have hsame : msg.length = msg₀.length ∧ msg.take sizeofRpcHeader = msg₀.take sizeofRpcHeader := by
    split at hdata
    · next data =>
      split at hdata
      · cases hdata
      · split at hdata
        · have htake := congrArg (List.take sizeofRpcHeader) (take_of_memcpy hdata)
          rw [List.take_take, min_eq_left (Nat.le_add_right _ _), List.take_append_of_le_length,
            List.take_take, min_self] at htake
          · exact ⟨memcpy_length hdata, htake⟩
          · rw [List.length_take]
            omega
        · cases hdata
          exact ⟨rfl, rfl⟩
    · cases hdata
      exact ⟨rfl, rfl⟩
  constructor
  · refine ⟨msg.drop sizeofRpcHeader, ?_⟩
    rw [← hbegin, ← hsame.2, List.take_append_drop]
  · rw [hsame.1, hsize]
    unfold WordSize.sizeT at hroom ⊢
    cases hword : h.word <;> rw [hword] at hroom <;> simp only [WordSize.bits, sizeofRpcHeader] at hroom ⊢ <;>
      omega

theorem responseMessage_isSome (h : Host) (seq : UInt32) (status : UInt16) (data : Bytes) (len : Nat) :
    (responseMessage h seq status (if 0 < len then some data else none) len).isSome ↔
      len ≤ data.length ∧ sizeofRpcHeader + len ≤ h.word.sizeT (sizeofRpcHeader + len) := by
  have hheader := RpcHeader.store_length h.order (responseHeader seq status len)
  unfold responseMessage
  dsimp only
  by_cases hroom : sizeofRpcHeader ≤ h.word.sizeT (sizeofRpcHeader + len)
  · rw [memcpy_eq_some (by rw [List.length_replicate]; omega), Option.bind_some]
    by_cases hpos : 0 < len
    · rw [if_pos hpos]
      dsimp only
      by_cases hlong : data.length < len
      · rw [if_pos hlong]
        apply iff_of_false Bool.false_ne_true
        omega
      · rw [if_neg hlong, if_pos hpos, memcpy_isSome, List.length_take]
        simp only [List.length_append, List.length_take, List.length_drop, List.length_replicate, hheader]
        omega
    · rw [if_neg hpos]
      apply iff_of_true rfl
      omega
  · rw [memcpy_eq_none (by rw [List.length_replicate]; omega)]
    apply iff_of_false Bool.false_ne_true
    omega

theorem responseIn_responseMessage (horder : h₁.order = h₂.order) {seq : UInt32} {status : UInt16}
    {tlv : Option Bytes} {len : Nat} {msg : Bytes}
    (hmsg : responseMessage h₂ seq status tlv len = some msg) :
    ∃ r, responseIn h₁ msg msg.length = some r ∧ r.seq = seq := by
  obtain ⟨⟨rest, hbegin⟩, hheader, hlong⟩ := responseMessage_begins hmsg
  have hload : RpcHeader.load h₁.order msg = responseHeader seq status len := by
    rw [hbegin, horder, RpcHeader.load_store]
  have hresp : isResponse h₁ msg = true := by
    unfold isResponse
    rw [hload]
    exact (by decide : (ntohs (htons 0) == 0) = true)
  have hlen : (ntohl (responseHeader seq status len).msgLen).toNat = len % 2 ^ 32 := by
    simp [responseHeader, UInt32.toNat_ofNat']
  have hmod := Nat.mod_le (msg.length - sizeofRpcHeader) (2 ^ 32)
  have hsize := h₁.word.sizeT_le (sizeofRpcHeader + len % 2 ^ 32)
  unfold responseIn responseOf
  rw [if_pos hresp, if_neg (by omega), hload]
  dsimp only
  rw [hlen, if_neg (by omega)]
  exact ⟨_, rfl, by simp [responseHeader]⟩

theorem rpcSendResponseTlv_log (t : Nat) (seq : UInt32) (status : RpcStatus) (tlv : Option Bytes)
    (len : Nat) (n : Node h ω) :
    ∃ l, (rpcSendResponseTlv E t seq status tlv len n).2.log = n.log ++ l ∧
      sentIn l = if (n.transports t).hasSend ∧ E.heapMalloc n.mallocs then
        ((responseMessage h seq status.code tlv len).map (t, ·)).toList else [] := by
  unfold rpcSendResponseTlv
  by_cases hsend : (n.transports t).hasSend = true
  · rw [if_pos hsend]
    dsimp only [Node.heapMalloc]
    by_cases hmalloc : E.heapMalloc n.mallocs = true
    · rw [if_pos hmalloc, if_pos ⟨hsend, hmalloc⟩]
      cases responseMessage h seq status.code tlv len with
      | none => exact ⟨[], (List.append_nil _).symm, rfl⟩
      | some msg => exact ⟨[_], rfl, rfl⟩
    · rw [if_neg hmalloc, if_neg (fun hboth => hmalloc hboth.2)]
      exact ⟨[], (List.append_nil _).symm, rfl⟩
  · rw [if_neg hsend, if_neg (fun hboth => hsend hboth.1)]
    exact ⟨[], (List.append_nil _).symm, rfl⟩

theorem cstr_append_zero (a b : Bytes) : cstr (a ++ 0 :: b) = cstr a := by
  unfold cstr
  induction a with
  | nil => rfl
  | cons x xs ih =>
    rw [List.cons_append, List.takeWhile_cons, List.takeWhile_cons, ih]

theorem get_storeMethod (n : Node h ω) (name : Bytes) :
    (n.storeMethod name).methods.get (n.storeMethod name).method = n.methods.get name := by
  apply Hashmap.get_congr
  exact beq_iff_eq.mpr (cstr_append_zero name _)

theorem serve_log (t : Nat) (req : Request) (m : MethodEntry ω) (n : Node h ω) :
    (serve E t req m n).log = match beforeResponse E m req n with
      | (none, n') => n'.log
      | (some (status, respLen), n') =>
        (rpcSendResponseTlv E t req.seq status (if status = .ok ∧ 0 < respLen then some n'.respTlv else none)
          (if status = .ok then respLen else 0) n').2.log := by
  unfold serve beforeResponse
  generalize runParser E m req n = x
  obtain ⟨parsed, n₁⟩ := x
  cases parsed with
  | none => rfl
  | some parsed =>
    obtain ⟨status, param⟩ := parsed
    dsimp only
    generalize runHandler m status param n₁ = y
    obtain ⟨status', result, n₂⟩ := y
    dsimp only
    generalize runEncoder m status' result n₂ = z
    obtain ⟨encoded, n₃⟩ := z
    cases encoded <;> rfl

theorem response_isSome (h : Host) (seq : UInt32) (status : RpcStatus) (respTlv : Bytes) (respLen : Nat) :
    (responseMessage h seq status.code (if status = .ok ∧ 0 < respLen then some respTlv else none)
      (if status = .ok then respLen else 0)).isSome ↔
      (status = .ok → respLen ≤ respTlv.length ∧
        sizeofRpcHeader + respLen ≤ h.word.sizeT (sizeofRpcHeader + respLen)) := by
  by_cases hok : status = .ok
  · have hiff := responseMessage_isSome h seq status.code respTlv respLen
    simp only [hok, true_and, if_true, true_implies] at hiff ⊢
    exact hiff
  · have hiff := responseMessage_isSome h seq status.code [] 0
    have hword := h.word.two_pow_le
    rw [if_neg (Nat.lt_irrefl 0), WordSize.sizeT_of_lt (by simp only [sizeofRpcHeader]; omega)] at hiff
    rw [if_neg (fun hboth => hok hboth.1), if_neg hok]
    exact iff_of_true (hiff.mpr (by simp)) (fun hok' => absurd hok' hok)

/-- A request is answered once by a node that can answer, and not at all by another. -/
theorem rpcHandleRequest_log {t : Nat} {msg : Bytes} {len : Nat} {n : Node h ω} {req : Request}
    (hreq : requestOf h msg len = some req) :
    ∃ l, (rpcHandleRequest E t msg len n).log = n.log ++ l ∧
      (CanAnswer E t req n ∧ (∃ status tlv k answer, sentIn l = [(t, answer)] ∧
        responseMessage h req.seq status tlv k = some answer) ∨
        ¬ CanAnswer E t req n ∧ sentIn l = []) := by
  unfold rpcHandleRequest CanAnswer
  rw [hreq]
  dsimp only
  rw [get_storeMethod]
  cases n.methods.get req.name with
  | none =>
    obtain ⟨l, hl, hsent⟩ := rpcSendResponseTlv_log (E := E) t req.seq .methodNotFound none 0
      (n.storeMethod req.name)
    have hsome := (response_isSome h req.seq .methodNotFound [] 0).mpr (fun hok => by cases hok)
    obtain ⟨answer, hanswer⟩ := Option.isSome_iff_exists.mp hsome
    change responseMessage h req.seq _ none 0 = some answer at hanswer
    refine ⟨l, hl, ?_⟩
    rw [hsent]
    by_cases hcan : (n.transports t).hasSend = true ∧ E.heapMalloc n.mallocs = true
    · refine Or.inl ⟨hcan, _, _, _, answer, ?_, hanswer⟩
      have hstored : ((n.storeMethod req.name).transports t).hasSend = true ∧
          E.heapMalloc (n.storeMethod req.name).mallocs = true := hcan
      rw [if_pos hstored, hanswer]
      rfl
    · exact Or.inr ⟨hcan, if_neg hcan⟩
  | some m =>
    obtain ⟨hserves, l₀, hl₀, hsent₀⟩ := beforeResponse_spec (E := E) m req (n.storeMethod req.name)
    dsimp only
    rw [serve_log]
    cases hbefore : beforeResponse E m req (n.storeMethod req.name) with
    | mk encoded n' =>
      rw [hbefore] at hserves hl₀
      cases encoded with
      | none =>
        refine ⟨l₀, hl₀, Or.inr ⟨?_, hsent₀⟩⟩
        rintro ⟨-, status, respLen, n'', hsome, -⟩
        cases hsome
      | some encoded =>
        obtain ⟨status, respLen⟩ := encoded
        have hfits := response_isSome h req.seq status n'.respTlv respLen
        have hhasSend : (n'.transports t).hasSend = (n.transports t).hasSend :=
          congrArg Transport.hasSend (congrFun hserves.tables.transports t)
        dsimp only
        obtain ⟨l, hl, hsent⟩ := rpcSendResponseTlv_log (E := E) t req.seq status
          (if status = .ok ∧ 0 < respLen then some n'.respTlv else none)
          (if status = .ok then respLen else 0) n'
        refine ⟨l₀ ++ l, by rw [hl, hl₀, List.append_assoc]; rfl, ?_⟩
        rw [sentIn_append, hsent₀, List.nil_append, hsent, hhasSend]
        by_cases hmalloc : (n.transports t).hasSend = true ∧ E.heapMalloc n'.mallocs = true
        · rw [if_pos hmalloc]
          cases hanswer : responseMessage h req.seq status.code
              (if status = .ok ∧ 0 < respLen then some n'.respTlv else none)
              (if status = .ok then respLen else 0) with
          | none =>
            refine Or.inr ⟨?_, rfl⟩
            rintro ⟨-, status', respLen', n'', heq, -, hroom⟩
            cases heq
            rw [hanswer] at hfits
            exact Bool.false_ne_true (hfits.mpr hroom)
          | some answer =>
            rw [hanswer] at hfits
            exact Or.inl ⟨⟨hmalloc.1, status, respLen, n', rfl, hmalloc.2, hfits.mp rfl⟩, _, _, _, answer,
              rfl, hanswer⟩
        · rw [if_neg hmalloc]
          refine Or.inr ⟨?_, rfl⟩
          rintro ⟨hsend, status', respLen', n'', heq, hgranted, -⟩
          cases heq
          exact hmalloc ⟨hsend, hgranted⟩

theorem SendsFrame.built {t : Nat} {seq : UInt32} {name tlv f : Bytes} {m : Node h ω}
    (hsends : SendsFrame E t seq name tlv m f) : requestMessage h seq name tlv = some f := by
  have hlog := hsends.logged
  unfold rpcSendRequestTlv at hlog
  dsimp only [Node.heapMalloc] at hlog
  split at hlog
  · split at hlog
    · split at hlog
      · next msg hmsg =>
        change m.log ++ [_] = _ at hlog
        rw [List.append_cancel_left_eq, List.cons.injEq, Event.sent.injEq] at hlog
        rw [← hlog.1.2.1]
        exact hmsg
      · simp [Node.faulted] at hlog
    · simp at hlog
  · simp at hlog

/-- A request that was sent is answered if and only if it arrives and the receiver can answer. -/
theorem answersRequest_iff {t₁ t : Nat} {seq : UInt32} {name tlv f : Bytes} {m : Node h₁ ω₁}
    (hsends : SendsFrame E₁ t₁ seq name tlv m f) (n : Node h₂ ω) :
    AnswersRequest E h₁ t seq name tlv f n ↔
      RequestCrosses h₁.order h₂.order name tlv.length ∧
        CanAnswer E t ⟨seq, cstr name, tlv, tlv.length⟩ (n.record (.dispatched t f f.length)) := by
  have hbuilt := hsends.built
  have hlong : ¬ f.length < sizeofRpcHeader := by
    rw [requestMessage_eq_some hbuilt, List.length_append, RpcHeader.store_length]
    omega
  constructor
  · rintro ⟨hrequest, hsame, -, l, msg, r, hl, hsent, -⟩
    refine ⟨crosses_of_requestOf hbuilt hsame rfl rfl, ?_⟩
    obtain ⟨l', hl', hanswer⟩ := rpcHandleRequest_log (E := E) (t := t)
      (n := n.record (.dispatched t f f.length)) hsame
    rcases hanswer with ⟨hcan, -⟩ | ⟨-, hnone⟩
    · exact hcan
    · exfalso
      unfold rpcDispatchMessage at hl
      rw [if_neg hlong, hrequest, if_neg Bool.false_ne_true, hl', Node.record, List.append_assoc,
        List.append_cancel_left_eq] at hl
      rw [← hl, sentIn_append, hnone] at hsent
      cases hsent
  · rintro ⟨hcross, hcan⟩
    obtain ⟨hrequest, hsame⟩ := requestOf_of_crosses hbuilt hcross
    have hdispatch : rpcDispatchMessage E t f f.length n =
        rpcHandleRequest E t f f.length (n.record (.dispatched t f f.length)) := by
      unfold rpcDispatchMessage
      rw [if_neg hlong, hrequest, if_neg Bool.false_ne_true]
    obtain ⟨l, hl, hanswer⟩ := rpcHandleRequest_log (E := E) (t := t)
      (n := n.record (.dispatched t f f.length)) hsame
    rcases hanswer with ⟨-, status, tlv', k, answer, hsent, hmsg⟩ | ⟨hcannot, -⟩
    · obtain ⟨r, hr, hseq⟩ := responseIn_responseMessage hcross.order hmsg
      refine ⟨hrequest, hsame, ?_, .dispatched t f f.length :: l, answer, r, ?_, hsent, hr, hseq⟩
      · rw [hdispatch]
        exact (rpcHandleRequest_serves E t f f.length _).calls
      · rw [hdispatch, hl, Node.record, List.append_assoc]
        rfl
    · exact absurd hcan hcannot

/-- A request for the method `e`, to a node that has no methods. -/
theorem answersRequest_small :
    AnswersRequest Env.granting ⟨.little, .w64⟩ 0 1 [0x65] []
      [0, 0, 0, 0, 0, 1, 0, 0, 0, 1, 0, 1, 0x65] freshNode := by
  have hsends : SendsFrame Env.granting 0 1 [0x65] [] freshNode
      [0, 0, 0, 0, 0, 1, 0, 0, 0, 1, 0, 1, 0x65] := ⟨by decide +kernel, rfl⟩
  exact (answersRequest_iff hsends freshNode).mpr
    ⟨⟨rfl, by decide, by decide, by decide⟩, rfl, rfl⟩

/-- A request with an empty name is taken for the response to the receiver's own call. -/
theorem emptyName_confused :
    ∃ n, SendsFrame Env.granting 0 1 [] [] freshNode [0, 0, 0, 0, 0, 1, 0, 0, 0, 0, 0, 0] ∧
      Runs.run (Node.step Env.granting) freshNode waitingActs = some n ∧
        ((rpcDispatchMessage Env.granting 0 [0, 0, 0, 0, 0, 1, 0, 0, 0, 0, 0, 0] 12 n).calls.map Call.done) =
          [true] ∧
        ¬ AnswersRequest Env.granting ⟨.little, .w64⟩ 0 1 [] []
          [0, 0, 0, 0, 0, 1, 0, 0, 0, 0, 0, 0] n := by
  have heval : (Runs.run (Node.step Env.granting) freshNode waitingActs).map (fun n =>
      (rpcDispatchMessage Env.granting 0 [0, 0, 0, 0, 0, 1, 0, 0, 0, 0, 0, 0] 12 n).calls.map Call.done) =
        some [true] := by
    decide +kernel
  obtain ⟨n, hrun, hdone⟩ := Option.map_eq_some_iff.mp heval
  refine ⟨n, ⟨by decide +kernel, rfl⟩, hrun, hdone, ?_⟩
  intro hanswers
  have hresponse : isResponse ⟨.little, .w64⟩ [0, 0, 0, 0, 0, 1, 0, 0, 0, 0, 0, 0] = true := by decide
  rw [hanswers.request] at hresponse
  cases hresponse

end CcRpc
