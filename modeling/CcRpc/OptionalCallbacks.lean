import CcRpc.Names

/-!
# Methods with missing callbacks

`rpc_handle_request` asks before it calls a callback. The length of the response starts as the size
of the buffer and only the encoder corrects it, so a method without one answers every request it
accepts with 4096 zeros.
-/

namespace CcRpc

variable {h : Host} {ω : Type} {E : Env}

namespace MethodEntry

/-- The bytes that the encoder wrote for the result of the request; none without an encoder. -/
def encoded (m : MethodEntry ω) (ok : Nat → Bool) (req : Request) (w : ω) : Bytes :=
  match m.encodeResult, m.param ok req with
  | some encode, some (_, p) =>
    match encode (m.result p w).2.1 (List.replicate rpcMaxResultTlvSize 0) rpcMaxResultTlvSize with
    | some (_, buf, respLen) => buf.take respLen
    | none => []
  | _, _ => []

/-- The parser, if there is one, accepts the request and the handler, if there is one, returns 0. -/
def Accepts (m : MethodEntry ω) (ok : Nat → Bool) (req : Request) (w : ω) : Prop :=
  ∃ p, m.param ok req = some (0, p) ∧ (m.result p w).1 = 0

/-- A successful answer is what the encoder wrote, or zeros without an encoder. -/
theorem answer_ok {m : MethodEntry ω} {ok : Nat → Bool} {req : Request} {w : ω} {data : Bytes}
    (hans : m.answer ok req w = some (.ok, data)) :
    m.Accepts ok req w ∧
      data = if m.encodeResult.isSome then m.encoded ok req w
        else List.replicate rpcMaxResultTlvSize 0 := by
  unfold answer at hans
  unfold Accepts encoded
  cases hparam : m.param ok req with
  | none =>
    rw [hparam] at hans
    cases hans
  | some x =>
    obtain ⟨rc, p⟩ := x
    rw [hparam] at hans
    dsimp only at hans
    by_cases hrc : rc = 0
    · rw [if_neg (not_not.mpr hrc)] at hans
      by_cases hfail : (m.result p w).1 = 0
      · rw [if_neg (not_not.mpr hfail)] at hans
        refine ⟨⟨p, by rw [hrc], hfail⟩, ?_⟩
        cases hencode : m.encodeResult with
        | none =>
          rw [hencode] at hans
          cases hans
          rfl
        | some encode =>
          rw [hencode] at hans
          dsimp only at hans ⊢
          cases hbuf : encode (m.result p w).2.1 (List.replicate rpcMaxResultTlvSize 0)
              rpcMaxResultTlvSize with
          | none =>
            rw [hbuf] at hans
            cases hans
          | some y =>
            rw [hbuf] at hans
            dsimp only at hans
            split at hans
            · cases hans
            · cases hans
              rfl
      · rw [if_pos hfail] at hans
        cases hans
    · rw [if_pos hrc] at hans
      cases hans

theorem answer_noEncoder {m : MethodEntry ω} {ok : Nat → Bool} {req : Request} {w : ω}
    (hnone : m.encodeResult = none) (haccepts : m.Accepts ok req w) :
    m.answer ok req w = some (.ok, List.replicate rpcMaxResultTlvSize 0) := by
  obtain ⟨p, hparam, hresult⟩ := haccepts
  unfold answer
  rw [hparam]
  dsimp only
  rw [if_neg (by decide), if_neg (not_not.mpr hresult), hnone]

end MethodEntry

/-- Every response with status OK that the request causes has as payload what the encoder of its
method wrote. -/
def CarriesEncoded (E : Env) (t : Nat) (msg : Bytes) (len : Nat) (req : Request)
    (m : MethodEntry ω) (n : Node h ω) : Prop :=
  ∀ l, (rpcHandleRequest E t msg len n).log = n.log ++ l → ∀ t' answer ret r,
    .sent t' answer ret ∈ l → responseIn h answer answer.length = some r →
      r.status = RpcStatus.ok.code →
        r.payload.take r.msgLen = m.encoded (fun i => E.heapMalloc (n.mallocs + i)) req n.world

private theorem sent_not_mem_runs {m : MethodEntry ω} {ok : Nat → Bool} {req : Request} {t : Nat}
    {msg : Bytes} {ret : Nat} : Event.sent t msg ret ∉ m.runs ok req := by
  unfold MethodEntry.runs
  split
  · split <;> simp
  · simp

private theorem code_ok {status : RpcStatus} (hcode : status.code = RpcStatus.ok.code) :
    status = .ok := by
  cases status with
  | ok => rfl
  | methodNotFound | invalidParams | internalError | transportError | timeout =>
    exact absurd hcode (by decide)

theorem not_carriesEncoded {t : Nat} {msg : Bytes} {len : Nat} {req : Request} {m : MethodEntry ω}
    {n : Node h ω} (hreq : requestOf h msg len = some req)
    (hget : n.methods.get req.name = some m) (hnone : m.encodeResult = none) (hfits : m.Fits h.word)
    (hsend : (n.transports t).hasSend = true)
    (hmalloc : E.heapMalloc (n.mallocs + m.parserMallocs) = true)
    (haccepts : m.Accepts (fun i => E.heapMalloc (n.mallocs + i)) req n.world) :
    ¬ CarriesEncoded E t msg len req m n := by
  intro hcarries
  have hwithin : m.EncodesWithin := by
    intro encode hencode
    rw [hnone] at hencode
    cases hencode
  have hlog := rpcHandleRequest_answer (E := E) (t := t) hfits hwithin hreq hget
  have hzerosLen : (List.replicate rpcMaxResultTlvSize 0 : Bytes).length ≤ rpcMaxResultTlvSize := by
    rw [List.length_replicate]
  have hread := responseIn_responseFrame h req.seq .ok hzerosLen
  rw [MethodEntry.answer_noEncoder hnone haccepts] at hlog
  dsimp only [answerEvents] at hlog
  rw [if_pos ⟨hsend, hmalloc⟩] at hlog
  have hzeros := hcarries _ hlog t _ _ _
    (List.mem_append_right _ (List.mem_singleton.mpr rfl)) hread rfl
  have hencoded : m.encoded (fun i => E.heapMalloc (n.mallocs + i)) req n.world = [] := by
    unfold MethodEntry.encoded
    rw [hnone]
  rw [hencoded] at hzeros
  have hlength := congrArg List.length hzeros
  rw [List.take_length, List.length_replicate] at hlength
  cases hlength

/-- A response carries only what its encoder produced, if and only if the method has an encoder, or its
structs do not fit their buffers, or the request is not accepted, or no response can be sent. -/
theorem carriesEncoded_iff {t : Nat} {msg : Bytes} {len : Nat} {req : Request} {m : MethodEntry ω}
    {n : Node h ω} (hwithin : m.EncodesWithin) (hreq : requestOf h msg len = some req)
    (hget : n.methods.get req.name = some m) :
    CarriesEncoded E t msg len req m n ↔
      (m.encodeResult = none → m.Fits h.word → (n.transports t).hasSend = true →
        E.heapMalloc (n.mallocs + m.parserMallocs) = true →
          ¬ m.Accepts (fun i => E.heapMalloc (n.mallocs + i)) req n.world) := by
  constructor
  · intro hcarries hnone hfits hsend hmalloc haccepts
    exact not_carriesEncoded hreq hget hnone hfits hsend hmalloc haccepts hcarries
  · intro hcond l hl t' answer ret r hmem hr hok
    by_cases hfits : m.Fits h.word
    · have hlog := rpcHandleRequest_answer (E := E) (t := t) hfits hwithin hreq hget
      obtain ⟨n', -, -, -, -, -, hbefore⟩ := beforeResponse_answer (E := E)
        (n := n.storeMethod req.name) hfits hwithin req (cstr_append_zero _ _)
      have hanswer : m.answer (fun i => E.heapMalloc ((n.storeMethod req.name).mallocs + i)) req
          (n.storeMethod req.name).world =
            m.answer (fun i => E.heapMalloc (n.mallocs + i)) req n.world := rfl
      rw [hanswer] at hbefore
      rw [hl, List.append_cancel_left_eq] at hlog
      rw [hlog, List.mem_append] at hmem
      have hsent := hmem.resolve_left sent_not_mem_runs
      cases hans : m.answer (fun i => E.heapMalloc (n.mallocs + i)) req n.world with
      | none =>
        rw [hans] at hsent
        cases hsent
      | some x =>
        obtain ⟨status, data⟩ := x
        rw [hans] at hsent hbefore
        dsimp only [answerEvents] at hsent
        split at hsent
        · next hcan =>
          rw [List.mem_singleton, Event.sent.injEq] at hsent
          have hread := responseIn_responseFrame h req.seq status hbefore.1
          rw [← hsent.2.1, hr, Option.some.injEq] at hread
          subst hread
          have hstatus : status = .ok := code_ok hok
          rw [hstatus] at hans
          obtain ⟨haccepts, hdata⟩ := MethodEntry.answer_ok hans
          have hsome : m.encodeResult.isSome = true := by
            rw [Option.isSome_iff_ne_none]
            intro hnone
            exact hcond hnone hfits hcan.1 hcan.2 haccepts
          rw [if_pos hsome] at hdata
          rw [List.take_length, hdata]
        · cases hsent
    · -- no callback is run, and nothing is sent
      have hlog := rpcHandleRequest_found (E := E) (t := t) hreq hget
      rw [beforeResponse_unfit hfits, hl] at hlog
      have hnone : n.log ++ l = n.log ++ [] := by
        rw [List.append_nil]
        exact hlog
      rw [List.append_cancel_left_eq] at hnone
      rw [hnone] at hmem
      cases hmem

/-- A node with one method. -/
def nodeWith (name : Bytes) (m : MethodEntry Unit) : Node ⟨.little, .w64⟩ Unit :=
  { freshNode with methods := (freshNode.methods.put true name m).getD freshNode.methods }

theorem nodeWith_get (name : Bytes) (m : MethodEntry Unit) :
    (nodeWith name m).methods.get name = some m := by
  obtain ⟨methods, hput⟩ := freshNode.methods.put_true name m
  have hmethods : (nodeWith name m).methods = methods := by
    unfold nodeWith
    rw [hput]
    rfl
  rw [hmethods, Hashmap.get_put hput, (stringKey _).equiv.refl name]
  rfl

/-- A request for `add` without parameters. -/
def addFrame : Bytes := [0, 0, 0, 0, 0, 1, 0, 0, 0, 3, 0, 3, 0x61, 0x64, 0x64]

theorem requestOf_addFrame :
    requestOf ⟨.little, .w64⟩ addFrame 15 = some ⟨1, [0x61, 0x64, 0x64], [], 0⟩ := by
  decide

/-- The method `add`, with a handler and nothing else. -/
def handlerOnly : MethodEntry Unit where
  params := []
  results := []
  parseParam := none
  handler := some fun _ _ w => (0, (), w)
  encodeResult := none
  freeParam := none
  freeResult := none

/-- The generated encoders keep to their buffer, or do not return. -/
theorem encodeResult_within {o : ByteOrder} {s : Schema} (hs : .i32 ∉ s) {r : Struct s}
    {buf buf' : Bytes} {cap respLen : Nat} {rc : Int}
    (hencode : encodeResult o s r buf cap = some (rc, buf', respLen)) :
    buf'.length = buf.length ∧ respLen ≤ buf'.length := by
  obtain ⟨buf₀, hclear, hemit⟩ := Option.bind_eq_some_iff.mp hencode
  obtain ⟨⟨buf₁, off⟩, hemit, heq⟩ := Option.map_eq_some_iff.mp hemit
  simp only [Prod.mk.injEq] at heq
  obtain ⟨-, rfl, rfl⟩ := heq
  have hlength : buf₀.length = buf.length := by
    split at hclear
    · exact memcpy_length hclear
    · cases hclear
      rfl
  rw [← hlength]
  by_cases hroom : (Struct.wire o s r).length ≤ buf₀.length
  · rw [emitFields_of_le hs r hroom] at hemit
    cases hemit
    simp only [List.length_append, List.length_drop]
    omega
  · rw [emitFields_of_lt hs r (Nat.lt_of_not_le hroom)] at hemit
    cases hemit

theorem u32_emits : FieldType.i32 ∉ [FieldType.u32] := by decide

/-- The method `add`, which adds 1 to a number. -/
def addOne : MethodEntry Unit where
  params := [.u32]
  results := [.u32]
  parseParam := some (parseStruct .little [.u32])
  handler := some fun p _ w => (0, ((p.1 : UInt32) + 1, ()), w)
  encodeResult := some (encodeResult .little [.u32])
  freeParam := none
  freeResult := none

/-- A request for `add` with the number 7. -/
def addSevenFrame : Bytes :=
  [0, 0, 0, 0, 0, 1, 0, 0, 0, 10, 0, 3, 0x61, 0x64, 0x64, 1, 4, 0, 7, 0, 0, 0]

theorem requestOf_addSevenFrame : requestOf ⟨.little, .w64⟩ addSevenFrame 22 =
    some ⟨1, [0x61, 0x64, 0x64], [1, 4, 0, 7, 0, 0, 0], 7⟩ := by
  decide

/-- A method with all it needs. -/
theorem carriesEncoded_iff_add :
    CarriesEncoded Env.granting 0 addSevenFrame 22 ⟨1, [0x61, 0x64, 0x64], [1, 4, 0, 7, 0, 0, 0], 7⟩ addOne
      (nodeWith [0x61, 0x64, 0x64] addOne) := by
  have hwithin : addOne.EncodesWithin := by
    intro encode hencode r buf cap rc buf' respLen hbuf
    cases hencode
    exact encodeResult_within u32_emits hbuf
  apply (carriesEncoded_iff hwithin requestOf_addSevenFrame (nodeWith_get _ _)).mpr
  intro hnone
  cases hnone

/-- Without an encoder the response to an accepted request has 4096 zeros in it. -/
theorem handlerOnly_zeros :
    ¬ CarriesEncoded Env.granting 0 addFrame 15 ⟨1, [0x61, 0x64, 0x64], [], 0⟩ handlerOnly
      (nodeWith [0x61, 0x64, 0x64] handlerOnly) := by
  apply not_carriesEncoded requestOf_addFrame (nodeWith_get _ handlerOnly) rfl (by decide) rfl rfl
  exact ⟨(), rfl, rfl⟩

end CcRpc
