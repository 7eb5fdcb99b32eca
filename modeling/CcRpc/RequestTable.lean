import CcRpc.FieldBuffers
import CcRpc.FrameLoop
import CcRpc.OptionalCallbacks

/-!
# The decision table of a request

On a node whose methods were registered by generated functions a request causes one response, told
by a table from the request, the method and the world of its handler. The static buffers that
requests share are all filled or cleared before they are read, so that nothing of an earlier request
shows in the response.
-/

namespace CcRpc

variable {h : Host} {ω : Type} {E : Env}

/-- What is in `param_buf` and `result_buf`, read as the struct of a field list that fits them. -/
structure StructBuffers where
  param : (s : Schema) → Struct s
  result : (s : Schema) → Struct s

/-- Both buffers after `memset`. -/
def StructBuffers.cleared : StructBuffers := ⟨Struct.zero, Struct.zero⟩

/-- `runParser`, storing in `param_buf`. -/
def runParserBuffers (E : Env) (m : MethodEntry ω) (req : Request) (b : StructBuffers)
    (n : Node h ω) : Option (RpcStatus × StructBuffers) × Node h ω :=
  if m.Fits h.word then
    match m.parseParam with
    | none => (some (.ok, b), n)
    | some parse =>
      ((parse (fun i => E.heapMalloc (n.mallocs + i)) req.tlv req.tlvLen).map fun (rc, param) =>
          (if rc ≠ 0 then .invalidParams else .ok,
            { b with param := Function.update b.param m.params param }),
        { n with mallocs := n.mallocs + m.params.length })
  else (none, n)

/-- `runHandler`, from `param_buf` to `result_buf`. -/
def runHandlerBuffers (m : MethodEntry ω) (status : RpcStatus) (b : StructBuffers) (n : Node h ω) :
    RpcStatus × StructBuffers × Node h ω :=
  match m.handler with
  | none => (status, b, n)
  | some handler =>
    if status = .ok then
      let (rc, result, world) := handler (b.param m.params) (b.result m.results) n.world
      (if rc ≠ 0 then .internalError else .ok,
        { b with result := Function.update b.result m.results result },
        { n with world := world }.record (.ran (cstr n.method) ⟨m.params, b.param m.params⟩))
    else (status, b, n)

/-- `serve` with the two buffers. -/
def serveBuffers (E : Env) (t : Nat) (req : Request) (m : MethodEntry ω) (b : StructBuffers)
    (n : Node h ω) : StructBuffers × Node h ω :=
  match runParserBuffers E m req b n with
  | (none, n) => (b, n.faulted)
  | (some (status, b), n) =>
    let (status, b, n) := runHandlerBuffers m status b n
    match runEncoder m status (b.result m.results) n with
    | (none, n) => (b, n.faulted)
    | (some (status, respLen), n) =>
      let tlv := if status = .ok ∧ 0 < respLen then some n.respTlv else none
      let (_, n) := rpcSendResponseTlv E t req.seq status tlv (if status = .ok then respLen else 0) n
      (b, freeBuffers m (b.param m.params) (b.result m.results) n)

/-- `rpc_handle_request` with the two buffers. -/
def rpcHandleRequestBuffers (E : Env) (t : Nat) (msg : Bytes) (len : Nat) (b : StructBuffers)
    (n : Node h ω) : StructBuffers × Node h ω :=
  match requestOf h msg len with
  | none => (b, n)
  | some req =>
    let n := n.storeMethod req.name
    match n.methods.get n.method with
    | none => (b, (rpcSendResponseTlv E t req.seq .methodNotFound none 0 n).2)
    | some m => serveBuffers E t req m .cleared n

theorem runParserBuffers_cleared (m : MethodEntry ω) (req : Request) (n : Node h ω) :
    (runParserBuffers E m req .cleared n).2 = (runParser E m req n).2 ∧
      ∀ status b, (runParserBuffers E m req .cleared n).1 = some (status, b) →
        b.result = Struct.zero ∧ (runParser E m req n).1 = some (status, b.param m.params) := by
  unfold runParserBuffers runParser
  by_cases hfits : m.Fits h.word
  · rw [if_pos hfits, if_pos hfits]
    cases m.parseParam with
    | none =>
      refine ⟨rfl, ?_⟩
      intro status b hb
      cases hb
      exact ⟨rfl, rfl⟩
    | some parse =>
      refine ⟨rfl, ?_⟩
      intro status b hb
      obtain ⟨⟨rc, param⟩, hparse, heq⟩ := Option.map_eq_some_iff.mp hb
      cases heq
      refine ⟨rfl, ?_⟩
      simp [hparse]
  · rw [if_neg hfits, if_neg hfits]
    refine ⟨rfl, ?_⟩
    intro status b hb
    cases hb

theorem runParserBuffers_none (m : MethodEntry ω) (req : Request) (b : StructBuffers) (n : Node h ω) :
    (runParserBuffers E m req b n).1 = none ↔ (runParser E m req n).1 = none := by
  unfold runParserBuffers runParser
  split
  · cases m.parseParam with
    | none => simp
    | some parse => simp
  · simp

theorem runHandlerBuffers_eq (m : MethodEntry ω) (status : RpcStatus) {b : StructBuffers}
    (hzero : b.result = Struct.zero) (n : Node h ω) :
    ∃ b', runHandlerBuffers m status b n =
        ((runHandler m status (b.param m.params) n).1, b',
          (runHandler m status (b.param m.params) n).2.2) ∧
      b'.param m.params = b.param m.params ∧
      b'.result m.results = (runHandler m status (b.param m.params) n).2.1 := by
  unfold runHandlerBuffers runHandler
  cases m.handler with
  | none => exact ⟨b, rfl, rfl, congrFun hzero _⟩
  | some handler =>
    dsimp only
    by_cases hok : status = .ok
    · rw [if_pos hok, if_pos hok, hzero]
      refine ⟨_, rfl, rfl, ?_⟩
      simp
    · rw [if_neg hok, if_neg hok]
      exact ⟨b, rfl, rfl, congrFun hzero _⟩

/-- Serving from cleared buffers is serving without them. -/
theorem serveBuffers_cleared (t : Nat) (req : Request) (m : MethodEntry ω) (n : Node h ω) :
    (serveBuffers E t req m .cleared n).2 = serve E t req m n := by
  obtain ⟨hnode, hsome⟩ := runParserBuffers_cleared (E := E) m req n
  have hnone := runParserBuffers_none (E := E) m req .cleared n
  unfold serveBuffers serve
  generalize runParserBuffers E m req .cleared n = x at hnode hsome hnone
  generalize runParser E m req n = y at hnode hsome hnone
  obtain ⟨parsed, n₁⟩ := x
  obtain ⟨parsed', n₁'⟩ := y
  dsimp only at hnode hsome hnone
  subst hnode
  cases parsed with
  | none =>
    rw [hnone.mp rfl]
  | some sb =>
    obtain ⟨status, b⟩ := sb
    obtain ⟨hzero, hparsed⟩ := hsome status b rfl
    subst hparsed
    obtain ⟨b', heq, hparam, hresult⟩ := runHandlerBuffers_eq m status hzero n₁
    dsimp only
    rw [heq]
    dsimp only
    rw [hparam, hresult]
    generalize runEncoder m _ _ _ = z
    obtain ⟨encoded, n₃⟩ := z
    cases encoded <;> rfl

theorem rpcHandleRequestBuffers_eq (t : Nat) (msg : Bytes) (len : Nat) (b : StructBuffers)
    (n : Node h ω) :
    (rpcHandleRequestBuffers E t msg len b n).2 = rpcHandleRequest E t msg len n := by
  unfold rpcHandleRequestBuffers rpcHandleRequest
  cases requestOf h msg len with
  | none => rfl
  | some req =>
    dsimp only
    cases (n.storeMethod req.name).methods.get (n.storeMethod req.name).method with
    | none => rfl
    | some m => exact serveBuffers_cleared t req m (n.storeMethod req.name)

/-- The message holds what its header announces: a name of 1 to 127 bytes and the TLV area after
it. -/
structure IsRequest (h : Host) (msg : Bytes) (len : Nat) : Prop where
  whole : sizeofRpcHeader + announced h.order msg ≤ len
  named : (ntohs (RpcHeader.load h.order msg).methodLen).toNat ≤ announced h.order msg
  nonempty : 1 ≤ (ntohs (RpcHeader.load h.order msg).methodLen).toNat
  short : (ntohs (RpcHeader.load h.order msg).methodLen).toNat ≤ 127

/-- The parts of such a message. -/
def requestIn (h : Host) (msg : Bytes) : Request where
  seq := ntohl (RpcHeader.load h.order msg).seq
  name := (msg.drop sizeofRpcHeader).take (ntohs (RpcHeader.load h.order msg).methodLen).toNat
  tlv := (msg.drop sizeofRpcHeader).drop (ntohs (RpcHeader.load h.order msg).methodLen).toNat
  tlvLen := announced h.order msg - (ntohs (RpcHeader.load h.order msg).methodLen).toNat

/-- A message with a header comes with a size that `size_t` can tell. `rpc_on_data`, the only caller
of the dispatcher, passes no other. -/
def Passed (h : Host) (msg : Bytes) (len : Nat) : Prop :=
  sizeofRpcHeader ≤ len → sizeofRpcHeader + announced h.order msg < 2 ^ h.word.bits

/-- A round of the frame loop dispatches nothing else: a size that wraps is below a header's. -/
theorem loopRound_passed {σ : Type} {P : Ports σ} {x z : Reasm × σ} {msg : Bytes} {len : Nat}
    (hround : loopRound h P x = some (some (msg, len), z)) : Passed h msg len := by
  intro hheader
  obtain ⟨-, -, -, hdispatched⟩ := loopRound_eq hround
  obtain ⟨hlen, hmsg⟩ := hdispatched msg len rfl
  have hann : announced h.order msg = announced h.order x.1.bytes := by
    rw [hmsg, ← hlen]
    unfold announced
    rw [RpcHeader.load_take hheader]
  rw [hann]
  by_contra hwrap
  have hshort := sizeT_firstLength_lt (Nat.le_of_not_lt hwrap)
  omega

theorem requestOf_eq_some {msg : Bytes} {len : Nat} (hpassed : Passed h msg len)
    (hreq : IsRequest h msg len) : requestOf h msg len = some (requestIn h msg) := by
  obtain ⟨hwhole, hnamed, hnonempty, hshort⟩ := hreq
  have hsize := hpassed (by omega)
  unfold announced at hsize hwhole hnamed
  unfold requestOf requestIn announced
  simp only [WordSize.sizeT_of_lt hsize, methodCap]
  rw [if_neg (by omega), if_neg (by omega), if_neg (by omega), if_neg (by omega)]

theorem requestOf_eq_none {msg : Bytes} {len : Nat} (hpassed : Passed h msg len)
    (hreq : ¬ IsRequest h msg len) : requestOf h msg len = none := by
  unfold requestOf
  by_cases hheader : sizeofRpcHeader ≤ len
  swap
  · exact if_pos (Nat.lt_of_not_le hheader)
  have hsize := hpassed hheader
  unfold announced at hsize
  simp only [WordSize.sizeT_of_lt hsize, methodCap]
  by_contra hne
  apply hreq
  split at hne
  · exact absurd rfl hne
  · split at hne
    · exact absurd rfl hne
    · split at hne
      · exact absurd rfl hne
      · split at hne
        · exact absurd rfl hne
        · exact ⟨by unfold announced; omega, by unfold announced; omega, by omega, by omega⟩

/-- What `rpc_register_X` registers. The encoder of a result with an `i32` does not exist. -/
structure GeneratedMethod (ω : Type) where
  params : Schema
  results : Schema
  encodes : .i32 ∉ results
  handler : Struct params → Struct results → ω → Int × Struct results × ω
  freeParam : Struct params → ω → ω
  freeResult : Struct results → ω → ω

def GeneratedMethod.entry (h : Host) (g : GeneratedMethod ω) : MethodEntry ω where
  params := g.params
  results := g.results
  parseParam := some (parseStruct h.order g.params)
  handler := some g.handler
  encodeResult := some (encodeResult h.order g.results)
  freeParam := some g.freeParam
  freeResult := some g.freeResult

/-- Every method was registered by a generated function. -/
def Node.Generated (n : Node h ω) : Prop :=
  ∀ name m, n.methods.get name = some m → ∃ g : GeneratedMethod ω, m = g.entry h

/-- The structs of every method lie inside the static buffers of 4096 bytes. -/
def Node.StructsFit (n : Node h ω) : Prop :=
  ∀ name m, n.methods.get name = some m → m.Fits h.word

/-- The results that the handlers return with 0 take at most 4096 bytes. -/
def Node.ResultsFit (n : Node h ω) : Prop :=
  ∀ name m, n.methods.get name = some m → ∀ p, (m.result p n.world).1 = 0 →
    Struct.tlvSize m.results (m.result p n.world).2.1 ≤ rpcMaxResultTlvSize

/-- The status and the payload of the response to a request, and the handler's run. -/
inductive Decides (n : Node h ω) (req : Request) : RpcStatus → Bytes → List Event → Prop
  | unknown (hget : n.methods.get req.name = none) : Decides n req .methodNotFound [] []
  | rejected {g : GeneratedMethod ω} {rc : Int} {p : Struct g.params}
      (hget : n.methods.get req.name = some (g.entry h))
      (hparse : parseStruct h.order g.params allOk req.tlv req.tlvLen = some (rc, p))
      (hrc : rc ≠ 0) : Decides n req .invalidParams [] []
  | handlerFailed {g : GeneratedMethod ω} {p : Struct g.params}
      (hget : n.methods.get req.name = some (g.entry h))
      (hparse : parseStruct h.order g.params allOk req.tlv req.tlvLen = some (0, p))
      (hrc : (g.handler p (Struct.zero g.results) n.world).1 ≠ 0) :
      Decides n req .internalError [] [.ran req.name ⟨g.params, p⟩]
  | encoderFailed {g : GeneratedMethod ω} {p : Struct g.params} {rc : Int} {buf : Bytes} {k : Nat}
      (hget : n.methods.get req.name = some (g.entry h))
      (hparse : parseStruct h.order g.params allOk req.tlv req.tlvLen = some (0, p))
      (hrc : (g.handler p (Struct.zero g.results) n.world).1 = 0)
      (hencode : encodeResult h.order g.results (g.handler p (Struct.zero g.results) n.world).2.1
        (List.replicate rpcMaxResultTlvSize 0) rpcMaxResultTlvSize = some (rc, buf, k))
      (hfail : rc ≠ 0) : Decides n req .internalError [] [.ran req.name ⟨g.params, p⟩]
  | answered {g : GeneratedMethod ω} {p : Struct g.params} {buf : Bytes} {k : Nat}
      (hget : n.methods.get req.name = some (g.entry h))
      (hparse : parseStruct h.order g.params allOk req.tlv req.tlvLen = some (0, p))
      (hrc : (g.handler p (Struct.zero g.results) n.world).1 = 0)
      (hencode : encodeResult h.order g.results (g.handler p (Struct.zero g.results) n.world).2.1
        (List.replicate rpcMaxResultTlvSize 0) rpcMaxResultTlvSize = some (0, buf, k)) :
      Decides n req .ok (buf.take k) [.ran req.name ⟨g.params, p⟩]

theorem GeneratedMethod.entry_within (g : GeneratedMethod ω) : (g.entry h).EncodesWithin := by
  intro encode hencode r buf cap rc buf' respLen hbuf
  cases hencode
  exact encodeResult_within g.encodes hbuf

theorem parseStruct_allOk (o : ByteOrder) (s : Schema) (p : Bytes) (remain : Nat) :
    ∃ rc v, parseStruct o s allOk p remain = some (rc, v) := by
  obtain ⟨r, hcells⟩ := parseCells_allOk (o := o) s p remain Blocks.Ledger.empty
  obtain ⟨acc, c, rest, m⟩ := r
  obtain ⟨v, -, hfields⟩ := parseCells_load hcells
  exact ⟨_, v, by rw [parseStruct, hfields]; rfl⟩

/-- The table has a row for every request to a generated method, and it is what the method
answers. -/
theorem decides_answer {n : Node h ω} (hfit : n.ResultsFit) {req : Request}
    (hnul : (0 : UInt8) ∉ req.name) {g : GeneratedMethod ω}
    (hget : n.methods.get req.name = some (g.entry h)) :
    ∃ status data, Decides n req status data ((g.entry h).runs allOk req) ∧
      (g.entry h).answer allOk req n.world = some (status, data) := by
  obtain ⟨rc, p, hparse⟩ := parseStruct_allOk h.order g.params req.tlv req.tlvLen
  have hparam : (g.entry h).param allOk req = some (rc, p) := hparse
  have hruns : (g.entry h).runs allOk req =
      if rc ≠ 0 then [] else [.ran req.name ⟨g.params, p⟩] := by
    unfold MethodEntry.runs
    rw [hparam, cstr_of_not_mem hnul]
    rfl
  rw [hruns]
  by_cases hrc : rc = 0
  · subst hrc
    rw [if_neg (by decide)]
    by_cases hfail : (g.handler p (Struct.zero g.results) n.world).1 = 0
    · have hsize : Struct.tlvSize g.results (g.handler p (Struct.zero g.results) n.world).2.1 ≤
          rpcMaxResultTlvSize := hfit req.name (g.entry h) hget p hfail
      have hencode := encodeResult_eq (o := h.order) g.encodes
        (g.handler p (Struct.zero g.results) n.world).2.1
        (List.length_replicate (n := rpcMaxResultTlvSize) (a := 0))
      rw [if_pos hsize] at hencode
      refine ⟨.ok, _, .answered hget hparse hfail hencode, ?_⟩
      exact MethodEntry.answer_encoded (m := g.entry h) hparam hfail rfl hencode
    · refine ⟨.internalError, [], .handlerFailed hget hparse hfail, ?_⟩
      exact MethodEntry.answer_handlerFailed (m := g.entry h) hparam hfail
  · rw [if_pos hrc]
    refine ⟨.invalidParams, [], .rejected hget hparse hrc, ?_⟩
    exact MethodEntry.answer_rejected (m := g.entry h) hparam hrc

/-- On a transport with a `send`, requests are decided by the table, whatever came before. A message that
holds what its header announces, for a name of 1 to 127 bytes without NUL, causes the row's run of the
handler and one send, of a frame with method length 0 and the number of the request. Any other message
causes nothing. Neither what earlier requests left in the static buffers nor what is in the struct buffers
shows. -/
theorem requests_decided (hE : E.Grants) {t : Nat} {n : Node h ω}
    (hsend : (n.transports t).hasSend = true) (hgen : n.Generated) (hstructs : n.StructsFit)
    (hfit : n.ResultsFit) {msg : Bytes} {len : Nat} (hpassed : Passed h msg len) :
    (IsRequest h msg len → (0 : UInt8) ∉ (requestIn h msg).name →
      ∃ status data ran, Decides n (requestIn h msg) status data ran ∧
        ∀ (b : StructBuffers) (method respTlv : Bytes),
          (rpcHandleRequestBuffers E t msg len b
              { n with method := method, respTlv := respTlv }).2.log =
            n.log ++ (ran ++
              [.sent t (responseFrame h.order (requestIn h msg).seq status data)
                (E.send n.sends (responseFrame h.order (requestIn h msg).seq status data))])) ∧
      (¬ IsRequest h msg len → ∀ (b : StructBuffers) (method respTlv : Bytes),
        (rpcHandleRequestBuffers E t msg len b
          { n with method := method, respTlv := respTlv }).2.log = n.log) := by
  have hsent : ∀ k status data, answerEvents E t (requestIn h msg).seq k n status data =
      [.sent t (responseFrame h.order (requestIn h msg).seq status data)
        (E.send n.sends (responseFrame h.order (requestIn h msg).seq status data))] := by
    intro k status data
    exact if_pos ⟨hsend, hE k⟩
  have hgranted : (fun i => E.heapMalloc (n.mallocs + i)) = allOk := by
    funext i
    exact hE _
  refine ⟨?_, ?_⟩
  · intro hreq hnul
    have hreq' := requestOf_eq_some hpassed hreq
    cases hget : n.methods.get (requestIn h msg).name with
    | none =>
      refine ⟨.methodNotFound, [], [], .unknown hget, ?_⟩
      intro b method respTlv
      have hlog := rpcHandleRequest_notFound (E := E) (t := t)
        (n := { n with method := method, respTlv := respTlv }) hreq' hget
      rw [rpcHandleRequestBuffers_eq, hlog]
      exact congrArg (n.log ++ ·) (hsent n.mallocs .methodNotFound [])
    | some m =>
      obtain ⟨g, rfl⟩ := hgen _ m hget
      obtain ⟨status, data, hdecides, hanswer⟩ := decides_answer hfit hnul hget
      refine ⟨status, data, _, hdecides, ?_⟩
      intro b method respTlv
      have hlog := rpcHandleRequest_answer (E := E) (t := t)
        (n := { n with method := method, respTlv := respTlv }) (hstructs _ _ hget) g.entry_within hreq' hget
      dsimp only at hlog
      rw [hgranted, hanswer] at hlog
      rw [rpcHandleRequestBuffers_eq, hlog]
      exact congrArg (fun l => n.log ++ ((g.entry h).runs allOk (requestIn h msg) ++ l))
        (hsent _ status data)
  · intro hreq b method respTlv
    rw [rpcHandleRequestBuffers_eq, rpcHandleRequest_of_none (requestOf_eq_none hpassed hreq)]

/-- The method `add` of one number, as it is generated. -/
def addMethod : GeneratedMethod Unit where
  params := [.u32]
  results := [.u32]
  encodes := u32_emits
  handler := fun p _ w => (0, ((p.1 : UInt32) + 1, ()), w)
  freeParam := fun _ w => w
  freeResult := fun _ w => w

/-- A method without results that has 600 strings as its parameters. -/
def wideAdd : GeneratedMethod Unit where
  params := List.replicate 600 .string
  results := []
  encodes := List.not_mem_nil
  handler := fun _ _ w => (0, (), w)
  freeParam := fun _ w => w
  freeResult := fun _ w => w

/-- A node with one generated method, under the name `add`. -/
def nodeAdding (g : GeneratedMethod Unit) : Node ⟨.little, .w64⟩ Unit :=
  nodeWith [0x61, 0x64, 0x64] (g.entry ⟨.little, .w64⟩)

theorem nodeAdding_get {g : GeneratedMethod Unit} {name : Bytes} {m : MethodEntry Unit}
    (hget : (nodeAdding g).methods.get name = some m) : m = g.entry ⟨.little, .w64⟩ := by
  obtain ⟨methods, hput⟩ := freshNode.methods.put_true [0x61, 0x64, 0x64] (g.entry ⟨.little, .w64⟩)
  have hmethods : (nodeAdding g).methods = methods := by
    unfold nodeAdding nodeWith
    rw [hput]
    rfl
  rw [hmethods, Hashmap.get_put hput] at hget
  split at hget
  · exact (Option.some.inj hget).symm
  · cases hget

theorem nodeAdding_generated (g : GeneratedMethod Unit) : (nodeAdding g).Generated :=
  fun _ _ hget => ⟨g, nodeAdding_get hget⟩

/-- A request for `add` with the number 7. -/
theorem requests_decided_add :
    ∃ status data ran, Decides (nodeAdding addMethod) (requestIn ⟨.little, .w64⟩ addSevenFrame) status data
        ran ∧
      ∀ (b : StructBuffers) (method respTlv : Bytes),
        (rpcHandleRequestBuffers Env.granting 0 addSevenFrame 22 b
            { nodeAdding addMethod with method := method, respTlv := respTlv }).2.log =
          ran ++ [.sent 0 (responseFrame .little 1 status data)
            (Env.granting.send 0 (responseFrame .little 1 status data))] := by
  have hstructs : (nodeAdding addMethod).StructsFit := by
    intro name m hget
    rw [nodeAdding_get hget]
    exact ⟨by decide, by decide⟩
  have hfit : (nodeAdding addMethod).ResultsFit := by
    intro name m hget p _
    obtain rfl := nodeAdding_get hget
    exact (by decide : 7 ≤ rpcMaxResultTlvSize)
  have hreq : IsRequest ⟨.little, .w64⟩ addSevenFrame 22 := ⟨by decide, by decide, by decide, by decide⟩
  have hlog : (nodeAdding addMethod).log = [] := rfl
  have hpassed : Passed ⟨.little, .w64⟩ addSevenFrame 22 := fun _ => by decide
  obtain ⟨status, data, ran, hdecides, hrun⟩ :=
    (requests_decided (E := Env.granting) (fun _ => rfl) (t := 0) rfl (nodeAdding_generated _) hstructs hfit
      hpassed).1 hreq (by decide)
  refine ⟨status, data, ran, hdecides, ?_⟩
  intro b method respTlv
  rw [hrun b method respTlv, hlog]
  rfl

/-- The same node without a `send`. -/
def muteAdding : Node ⟨.little, .w64⟩ Unit :=
  { nodeAdding addMethod with transports := fun _ => ⟨false, true, Reasm.empty⟩ }

/-- A method of 600 strings overruns `param_buf`, and a transport without a `send` sends nothing. Neither
sends the one response that the table has for the request. -/
theorem requests_not_decided :
    ((nodeAdding wideAdd).Generated ∧ (nodeAdding wideAdd).ResultsFit ∧
        IsRequest ⟨.little, .w64⟩ addFrame 15 ∧
        ∀ b, (rpcHandleRequestBuffers Env.granting 0 addFrame 15 b (nodeAdding wideAdd)).2.fault = true ∧
          (rpcHandleRequestBuffers Env.granting 0 addFrame 15 b (nodeAdding wideAdd)).2.log = []) ∧
      muteAdding.Generated ∧ muteAdding.StructsFit ∧ muteAdding.ResultsFit ∧
        IsRequest ⟨.little, .w64⟩ addSevenFrame 22 ∧
        ∀ b t msg ret, .sent t msg ret ∉
          (rpcHandleRequestBuffers Env.granting 0 addSevenFrame 22 b muteAdding).2.log := by
  have hget : muteAdding.methods.get [0x61, 0x64, 0x64] = some (addMethod.entry ⟨.little, .w64⟩) :=
    nodeWith_get _ _
  have hfits : (addMethod.entry ⟨.little, .w64⟩).Fits .w64 := ⟨by decide, by decide⟩
  have hwide : (rpcHandleRequest Env.granting 0 addFrame 15 (nodeAdding wideAdd)).fault = true ∧
      (rpcHandleRequest Env.granting 0 addFrame 15 (nodeAdding wideAdd)).log.length = 0 := by
    decide +kernel
  refine ⟨⟨nodeAdding_generated _, ?_, ⟨by decide, by decide, by decide, by decide⟩, ?_⟩,
    fun _ _ hget => ⟨addMethod, nodeAdding_get hget⟩, ?_, ?_,
    ⟨by decide, by decide, by decide, by decide⟩, ?_⟩
  · intro name m hget p _
    obtain rfl := nodeAdding_get hget
    exact Nat.zero_le _
  · intro b
    rw [rpcHandleRequestBuffers_eq]
    exact ⟨hwide.1, List.length_eq_zero_iff.mp hwide.2⟩
  · intro name m hget
    rw [nodeAdding_get hget]
    exact ⟨by decide, by decide⟩
  · intro name m hget p _
    obtain rfl := nodeAdding_get hget
    exact (by decide : 7 ≤ rpcMaxResultTlvSize)
  · intro b t msg ret hmem
    have hlog := rpcHandleRequest_answer (E := Env.granting) (t := 0) (n := muteAdding) hfits
      addMethod.entry_within requestOf_addSevenFrame hget
    have hempty : muteAdding.log = [] := rfl
    rw [rpcHandleRequestBuffers_eq, hlog, hempty, List.nil_append, List.mem_append] at hmem
    rcases hmem with hmem | hmem
    · rcases runs_cases (addMethod.entry ⟨.little, .w64⟩) _ _ with hruns | ⟨param, hruns⟩
      · rw [hruns] at hmem
        cases hmem
      · rw [hruns, List.mem_singleton] at hmem
        cases hmem
    · have hsilent : ∀ seq k status data, answerEvents Env.granting 0 seq k muteAdding status data = [] :=
        fun _ _ _ _ => if_neg (by simp [muteAdding])
      split at hmem
      · cases hmem
      · rw [hsilent] at hmem
        cases hmem

end CcRpc
