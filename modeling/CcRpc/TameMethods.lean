import CcRpc.Acceptance
import CcRpc.OptionalCallbacks
import CcRpc.Sending

/-!
# Serving without a fault

The dispatch of a frame does nothing undefined when the callbacks of the methods return, and sends no
message longer than a response.
-/

namespace CcRpc

variable {h : Host} {ω : Type} {E : Env}

/-- The structs of the method fit the static buffers, its callbacks return on every request whose TLV area
is all there, with memory for each of its fields, and the encoder keeps to its buffer. -/
structure MethodEntry.Tame (w : WordSize) (m : MethodEntry ω) : Prop where
  fits : m.Fits w
  within : m.EncodesWithin
  returns : ∀ ok req w, (∀ i, ok i = true) → req.tlvLen ≤ req.tlv.length → (m.answer ok req w).isSome

/-- Generated methods are tame when their handlers return what can be encoded in the response buffer. -/
theorem Provider.entry_within {m : RemoteMethod} (x : Provider m ω) : (x.entry h).EncodesWithin := by
  intro encode hencode r buf cap rc buf' respLen hbuf
  cases hencode
  exact encodeResult_within m.emitsResults hbuf

theorem Provider.entry_tame {m : RemoteMethod} {x : Provider m ω} {w : WordSize} (hfits : m.Fits w)
    (henc : ∀ inp w, (Provider.outcome (some x) inp w).Encodes h.order) : (x.entry h).Tame w := by
  refine ⟨x.entry_fits hfits, x.entry_within, ?_⟩
  intro ok req w hok hwhole
  have hall : ok = allOk := funext hok
  have hparse : ∃ rc p, parseStruct h.order m.params allOk req.tlv req.tlvLen = some (rc, p) := by
    have hlen : (req.tlv.take req.tlvLen).length = req.tlvLen := List.length_take_of_le hwhole
    have hparsed := parseFields_delivers_or_stops (o := h.order) m.params (req.tlv.take req.tlvLen)
      (req.tlv.drop req.tlvLen)
    rw [List.take_append_drop, hlen] at hparsed
    unfold parseStruct
    rcases hparsed with ⟨v, rest, heq, -⟩ | ⟨v, r, heq, -⟩
    · exact ⟨_, _, by rw [heq]; rfl⟩
    · exact ⟨_, _, by rw [heq]; rfl⟩
  obtain ⟨rc, p, hparse⟩ := hparse
  have hparam : (x.entry h).param ok req = some (rc, p) := by
    rw [hall]
    exact hparse
  by_cases hrc : rc = 0
  · subst hrc
    by_cases hresult : (x.handler p (Struct.zero m.results) w).1 = 0
    · obtain ⟨-, hsize⟩ := henc p w (x.handler p (Struct.zero m.results) w).2.1
        (by rw [← hresult]; rfl)
      have hencode := encodeResult_eq (o := h.order) m.emitsResults
        (x.handler p (Struct.zero m.results) w).2.1
        (List.length_replicate (n := rpcMaxResultTlvSize) (a := 0))
      rw [if_pos hsize] at hencode
      rw [MethodEntry.answer_encoded hparam hresult rfl hencode]
      rfl
    · rw [MethodEntry.answer_handlerFailed hparam hresult]
      rfl
  · rw [MethodEntry.answer_rejected hparam hrc]
    rfl

theorem rpcSendResponseTlv_fault {t : Nat} {seq : UInt32} {status : RpcStatus} {tlv : Option Bytes}
    {len : Nat} {msg : Bytes} (hmsg : responseMessage h seq status.code tlv len = some msg)
    (n : Node h ω) : (rpcSendResponseTlv E t seq status tlv len n).2.fault = n.fault := by
  unfold rpcSendResponseTlv
  simp only [Node.heapMalloc, hmsg]
  split
  · split <;> rfl
  · rfl

theorem beforeResponse_fault (m : MethodEntry ω) (req : Request) (n : Node h ω) :
    (beforeResponse E m req n).2.fault = n.fault := by
  have hparse : (runParser E m req n).2.fault = n.fault := by
    unfold runParser
    split
    · split <;> rfl
    · rfl
  have hhandle : ∀ status param (k : Node h ω), (runHandler m status param k).2.2.fault = k.fault := by
    intro status param k
    unfold runHandler
    split
    · rfl
    · dsimp only
      split <;> rfl
  have hencode : ∀ status result (k : Node h ω), (runEncoder m status result k).2.fault = k.fault := by
    intro status result k
    unfold runEncoder
    dsimp only
    split
    · rfl
    · split
      · split <;> rfl
      · rfl
  unfold beforeResponse
  generalize runParser E m req n = x at hparse
  obtain ⟨parsed, n₁⟩ := x
  cases parsed with
  | none => exact hparse
  | some parsed =>
    obtain ⟨status, param⟩ := parsed
    dsimp only at hparse ⊢
    rw [hencode, hhandle, hparse]

theorem serve_fault (t : Nat) (req : Request) (m : MethodEntry ω) (n : Node h ω) :
    (serve E t req m n).fault = match beforeResponse E m req n with
      | (none, _) => true
      | (some (status, respLen), n') =>
        (rpcSendResponseTlv E t req.seq status (if status = .ok ∧ 0 < respLen then some n'.respTlv else none)
          (if status = .ok then respLen else 0) n').2.fault := by
  unfold serve beforeResponse
  generalize runParser E m req n = x
  obtain ⟨parsed, n₁⟩ := x
  cases parsed with
  | none => rfl
  | some parsed =>
    obtain ⟨status, param⟩ := parsed
    dsimp only
    generalize runHandler m status param n₁ = y
    obtain ⟨status', result, n₂⟩ := y
    dsimp only
    generalize runEncoder m status' result n₂ = z
    obtain ⟨encoded, n₃⟩ := z
    cases encoded <;> rfl

/-- The response to a request, if the transport has a `send`. -/
def responseTo (E : Env) (t : Nat) (seq : UInt32) (status : RpcStatus) (data : Bytes) (n : Node h ω) :
    List Event :=
  if (n.transports t).hasSend then
    [.sent t (responseFrame h.order seq status data)
      (E.send n.sends (responseFrame h.order seq status data))]
  else []

theorem answerEvents_granted (hE : E.Grants) (t : Nat) (seq : UInt32) (k : Nat) (n : Node h ω)
    (status : RpcStatus) (data : Bytes) :
    answerEvents E t seq k n status data = responseTo E t seq status data n := by
  unfold answerEvents responseTo
  simp [hE k]

/-- The methods in the table are tame. -/
def Node.TameMethods (n : Node h ω) : Prop := ∀ name m, n.methods.get name = some m → m.Tame h.word

/-- A request is served without a fault, and answered. -/
theorem rpcHandleRequest_tame (hE : E.Grants) {n : Node h ω} (hmethods : n.TameMethods) {t : Nat}
    {msg : Bytes} {len : Nat} {req : Request} (hreq : requestOf h msg len = some req)
    (hwhole : req.tlvLen ≤ req.tlv.length) :
    (rpcHandleRequest E t msg len n).fault = n.fault ∧ ∃ ran status data,
      (ran = [] ∨ ∃ param, ran = [Event.ran (cstr req.name) param]) ∧
        data.length ≤ rpcMaxResultTlvSize ∧ (rpcHandleRequest E t msg len n).log =
          n.log ++ (ran ++ responseTo E t req.seq status data n) := by
  cases hget : n.methods.get req.name with
  | none =>
    have hhands : Hands .methodNotFound 0 [] [] := hands_failed (by decide) 0 []
    have hmsg := hhands.responseMessage (h := h) (Nat.zero_le _) req.seq
    constructor
    · unfold rpcHandleRequest
      rw [hreq]
      dsimp only
      rw [get_storeMethod, hget]
      exact rpcSendResponseTlv_fault hmsg _
    · refine ⟨[], .methodNotFound, [], .inl rfl, Nat.zero_le _, ?_⟩
      rw [rpcHandleRequest_notFound hreq hget, answerEvents_granted hE]
      rfl
  | some m =>
    have htame := hmethods _ _ hget
    have hname : cstr (n.storeMethod req.name).method = cstr req.name := cstr_append_zero _ _
    have hsome := htame.returns (fun i => E.heapMalloc (n.mallocs + i)) req n.world (fun i => hE _) hwhole
    obtain ⟨⟨status, data⟩, hanswer⟩ := Option.isSome_iff_exists.mp hsome
    obtain ⟨n', hn', -, -, -, -, hbefore⟩ := beforeResponse_answer (E := E) htame.fits htame.within req hname
    have hfault := beforeResponse_fault (E := E) m req (n.storeMethod req.name)
    have hstored : m.answer (fun i => E.heapMalloc ((n.storeMethod req.name).mallocs + i)) req
        (n.storeMethod req.name).world = some (status, data) := hanswer
    rw [hstored] at hbefore
    obtain ⟨hdata, respLen, hencoded, hhands⟩ := hbefore
    constructor
    · unfold rpcHandleRequest
      rw [hreq]
      dsimp only
      rw [get_storeMethod, hget]
      dsimp only
      rw [serve_fault]
      generalize beforeResponse E m req (n.storeMethod req.name) = x at hn' hencoded hfault
      obtain ⟨encoded, n''⟩ := x
      dsimp only at hn' hencoded hfault
      subst hn' hencoded
      exact (rpcSendResponseTlv_fault (hhands.responseMessage hdata req.seq) _).trans hfault
    · refine ⟨_, status, data, runs_cases m (fun i => E.heapMalloc (n.mallocs + i)) req, hdata, ?_⟩
      rw [rpcHandleRequest_answer htame.fits htame.within hreq hget, hanswer]
      dsimp only
      rw [answerEvents_granted hE]

theorem announced_frame {f : Bytes} (hf : (wireFraming h.order).IsFrame f)
    (hbits : f.length < 2 ^ h.word.bits) :
    (f.drop sizeofRpcHeader).length = (ntohl (RpcHeader.load h.order f).msgLen).toNat ∧
      h.word.sizeT (sizeofRpcHeader + (ntohl (RpcHeader.load h.order f).msgLen).toNat) = f.length := by
  obtain ⟨hlong, hlen⟩ := isFrame_iff.mp hf
  have hsays : f.length = sizeofRpcHeader + (ntohl (RpcHeader.load h.order f).msgLen).toNat := hlen
  rw [List.length_drop, ← hsays, WordSize.sizeT_of_lt hbits]
  omega

theorem requestOf_whole {f : Bytes} (hf : (wireFraming h.order).IsFrame f)
    (hbits : f.length < 2 ^ h.word.bits) {req : Request} (hreq : requestOf h f f.length = some req) :
    req.tlvLen ≤ req.tlv.length := by
  obtain ⟨hpayload, -⟩ := announced_frame hf hbits
  unfold requestOf at hreq
  split at hreq
  · cases hreq
  · dsimp only at hreq
    split at hreq
    · cases hreq
    · split at hreq
      · cases hreq
      · split at hreq
        · cases hreq
        · cases hreq
          dsimp only
          rw [List.length_drop, hpayload]

theorem responseOf_whole {f : Bytes} (hf : (wireFraming h.order).IsFrame f)
    (hbits : f.length < 2 ^ h.word.bits) {r : Response} (hr : responseOf h f f.length = some r) :
    r.msgLen = r.payload.length := by
  obtain ⟨hpayload, -⟩ := announced_frame hf hbits
  unfold responseOf at hr
  split at hr
  · cases hr
  · dsimp only at hr
    split at hr
    · cases hr
    · cases hr
      exact hpayload.symm

/-- What a node must be to go on safely. Every message it sent is shorter than 4 GiB. -/
structure Node.Safe (n : Node h ω) : Prop where
  sound : n.Sound
  methods : n.TameMethods
  ok : n.fault = false
  short : ∀ t g ret, .sent t g ret ∈ n.log → g.length < 2 ^ 32

/-- The log grew, and no message of more than `N` bytes was sent in between. -/
def Node.SendsUpTo (N : Nat) (n n' : Node h ω) : Prop :=
  ∃ l, n'.log = n.log ++ l ∧ ∀ t g ret, .sent t g ret ∈ l → g.length ≤ N

theorem Node.SendsUpTo.of_eq {N : Nat} {n n' : Node h ω} (hlog : n'.log = n.log) : n.SendsUpTo N n' :=
  ⟨[], by rw [hlog, List.append_nil], by simp⟩

theorem Node.SendsUpTo.trans {N : Nat} {n m n' : Node h ω} (hnm : n.SendsUpTo N m)
    (hmn : m.SendsUpTo N n') : n.SendsUpTo N n' := by
  obtain ⟨l, hl, hshort⟩ := hnm
  obtain ⟨l', hl', hshort'⟩ := hmn
  refine ⟨l ++ l', by rw [hl', hl, List.append_assoc], ?_⟩
  intro t g ret hmem
  rcases List.mem_append.mp hmem with hmem | hmem
  · exact hshort t g ret hmem
  · exact hshort' t g ret hmem

theorem Node.SendsUpTo.short {N : Nat} {n n' : Node h ω} (hsends : n.SendsUpTo N n') (hN : N < 2 ^ 32)
    (hn : ∀ t g ret, .sent t g ret ∈ n.log → g.length < 2 ^ 32) :
    ∀ t g ret, .sent t g ret ∈ n'.log → g.length < 2 ^ 32 := by
  obtain ⟨l, hl, hshort⟩ := hsends
  intro t g ret hmem
  rw [hl] at hmem
  rcases List.mem_append.mp hmem with hmem | hmem
  · exact hn t g ret hmem
  · exact (hshort t g ret hmem).trans_lt hN

/-- The longest response. -/
def maxResponse : Nat := sizeofRpcHeader + rpcMaxResultTlvSize

theorem responseFrame_length (o : ByteOrder) (seq : UInt32) (status : RpcStatus) (data : Bytes) :
    (responseFrame o seq status data).length = sizeofRpcHeader + data.length := by
  rw [responseFrame, List.length_append, RpcHeader.store_length]

theorem rpcHandleResponse_fault {n : Node h ω} (hn : n.Sound) {f : Bytes}
    (hf : (wireFraming h.order).IsFrame f) (hbits : f.length < 2 ^ h.word.bits) :
    (rpcHandleResponse f f.length n).fault = n.fault ∧ (rpcHandleResponse f f.length n).log = n.log := by
  unfold rpcHandleResponse
  split
  · exact ⟨rfl, rfl⟩
  · next r hr =>
    split
    · exact ⟨rfl, rfl⟩
    · next c hget =>
      obtain ⟨pc, hc, -, -⟩ := (hn.pending _ _).mp hget
      rw [hc]
      dsimp only
      have hcopy := pc.copyLen_le r.msgLen
      rw [dif_pos (by rw [← responseOf_whole hf hbits hr]; exact hcopy.2)]
      exact ⟨rfl, rfl⟩

theorem Node.Safe.dispatch (hE : E.Grants) {n : Node h ω} (hn : n.Safe) (t : Nat) {f : Bytes}
    (hf : (wireFraming h.order).IsFrame f) (hbits : f.length < 2 ^ h.word.bits) :
    (rpcDispatchMessage E t f f.length n).Safe ∧
      n.SendsUpTo maxResponse (rpcDispatchMessage E t f f.length n) := by
  have hspec := rpcDispatchMessage_spec E t f f.length n
  have hrest : (rpcDispatchMessage E t f f.length n).fault = n.fault ∧
      n.SendsUpTo maxResponse (rpcDispatchMessage E t f f.length n) := by
    have hrecord : n.SendsUpTo maxResponse (n.record (.dispatched t f f.length)) :=
      ⟨[.dispatched t f f.length], rfl, by simp⟩
    have hsound : (n.record (.dispatched t f f.length)).Sound :=
      hn.sound.dispatch ⟨⟨rfl, rfl, rfl, rfl, rfl, rfl⟩, ⟨[], rfl, quiet_nil⟩, .same, id⟩
    have hmethods : (n.record (.dispatched t f f.length)).TameMethods := hn.methods
    unfold rpcDispatchMessage
    dsimp only
    split
    · exact ⟨rfl, hrecord⟩
    · split
      · obtain ⟨hfault, hlog⟩ := rpcHandleResponse_fault hsound hf hbits
        exact ⟨hfault, hrecord.trans (.of_eq hlog)⟩
      · cases hreq : requestOf h f f.length with
        | none =>
          rw [rpcHandleRequest_of_none hreq]
          exact ⟨rfl, hrecord⟩
        | some req =>
          obtain ⟨hfault, ran, status, data, hran, hdata, hlog⟩ := rpcHandleRequest_tame (t := t) hE
            hmethods hreq (requestOf_whole hf hbits hreq)
          refine ⟨hfault, hrecord.trans ⟨_, hlog, ?_⟩⟩
          intro t' g ret hmem
          rcases List.mem_append.mp hmem with hmem | hmem
          · rcases hran with rfl | ⟨param, rfl⟩ <;> simp at hmem
          · unfold responseTo at hmem
            split at hmem
            · rw [List.mem_singleton] at hmem
              cases hmem
              rw [responseFrame_length]
              exact Nat.add_le_add_left hdata _
            · cases hmem
  refine ⟨⟨hn.sound.dispatch hspec, ?_, hrest.1.trans hn.ok, hrest.2.short (by decide) hn.short⟩, hrest.2⟩
  intro name m hget
  rw [hspec.tables.methods] at hget
  exact hn.methods name m hget

/-- A method `e` that adds 1 to a number. -/
def incMethod : RemoteMethod where
  rpcname := [0x65]
  params := [.u32]
  results := [.u32]
  named := by decide
  room := by decide
  nulFree := by decide
  emitsParams := u32_emits
  emitsResults := u32_emits

theorem incMethod_fits (w : WordSize) : incMethod.Fits w := by
  cases w <;> exact ⟨by decide, by decide⟩

def incProvider : Provider incMethod Unit where
  handler param _ w := (0, ((param.1 : UInt32) + 1, ()), w)
  freeParam _ w := w
  freeResult _ w := w

theorem carried_u32 (o : ByteOrder) (v : UInt32) : Struct.All (FieldType.Carried o) [.u32] (v, ()) := by
  refine ⟨⟨trivial, trivial, ?_⟩, trivial⟩
  intro data hdata
  cases hdata
  simp

theorem incProvider_encodes {o : ByteOrder} (inp : Struct incMethod.params) (w : Unit) :
    (Provider.outcome (some incProvider) inp w).Encodes o := by
  intro r hr
  cases hr
  exact ⟨carried_u32 _ _, (by decide : 7 ≤ rpcMaxResultTlvSize)⟩

end CcRpc
