import CcRpc.RemoteCall

/-!
# A stub's call among other frames

The request of a stub and its response may come with any other frames around them, and the two nodes may do
anything else meanwhile. The call is a local call of the handler if and only if the hosts have one byte
order, both ends of the connection can send and receive, and the struct has no NULL string where the method
is registered.
-/

namespace CcRpc

variable {h h₁ h₂ : Host} {ω ω₁ ω₂ : Type} {E E₁ E₂ : Env} {t t₁ t₂ : Nat} {b₁ : Boot ω₁} {b₂ : Boot ω₂}
  {m : RemoteMethod}

/-- A run of the caller in which the stub of `m` calls with its TLVs, over the transport that its name is
bound to. -/
structure StubCalls (E : Env) (t : Nat) (b : Boot ω) (m : RemoteMethod) (tlv : Bytes)
    (setup : List (Action ω)) (c₀ c₁ : Node h ω) : Prop where
  reliable : E.Reliable
  polls : ∀ t', .onData t' [] [] ∉ setup
  before : Runs.run (Node.step E) (b.node h) setup = some c₀
  bound : c₀.transportMap.get m.rpcname = some t
  call : c₀.step E (.call (m.stubArgs tlv)) = some c₁

/-- The call got the number `seq`, and its request `f` was sent. -/
structure Sends (t : Nat) (m : RemoteMethod) (tlv : Bytes) (seq : UInt32) (f : Bytes)
    (c₀ c₁ : Node h ω) : Prop where
  request : requestMessage h seq m.rpcname tlv = some f
  log : c₁.log = c₀.log ++ [.sent t f f.length]
  calls : c₁.calls = c₀.calls ++ [(m.stubArgs tlv).toCall seq .sent]

/-- A run of a server that has the method, or none of its name, from `n₀` on. -/
structure Provides (E : Env) (b : Boot ω) (x : Option (Provider m ω)) (setup acts : List (Action ω))
    (n₀ n : Node h ω) : Prop where
  grants : E.Grants
  before : Runs.run (Node.step E) (b.node h) setup = some n₀
  run : Runs.run (Node.step E) n₀ acts = some n
  method : n₀.methods.get m.rpcname = x.map (Provider.entry h)
  kept : ∀ name e, .registerMethod name e ∈ acts → cstr name ≠ cstr m.rpcname

/-- The server took its frames one after the other. At `f` it was in the state `k`, ran the handler on `inp`,
once, if it has it, and sent `g`. -/
structure ServedAt (E : Env) (t : Nat) (x : Option (Provider m ω)) (inp : Struct m.params)
    (acts : List (Action ω)) (before : List Bytes) (f : Bytes) (after : List Bytes) (n₀ k n : Node h ω)
    (g : Bytes) : Prop where
  reached : n₀.Leads E (· ∈ acts) k
  earlier : dispatchedOn t k.log = before.map withLength
  served : ∃ ret, (rpcDispatchMessage E t f f.length k).log =
    k.log ++ .dispatched t f f.length :: (ranEvents x inp ++ [.sent t g ret])
  goesOn : (rpcDispatchMessage E t f f.length k).Leads E (· ∈ acts) n
  all : dispatchedOn t n.log = (before ++ f :: after).map withLength

/-- A run of the caller from `c₁` on, with nothing undefined in it, in which the frame `g` arrives before the
call `i` times out, among other frames of which none is a response with its number. -/
structure Hears (E : Env) (t : Nat) (o : ByteOrder) (seq : UInt32) (i : Nat) (g : Bytes)
    (setup acts : List (Action ω)) (before after : List Bytes) (c₁ c : Node h ω) : Prop where
  run : Runs.run (Node.step E) c₁ acts = some c
  ok : c.fault = false
  patient : .expire i ∉ acts
  polls : ∀ t', .onData t' [] [] ∉ acts
  arrives : FrameArrives ⟨o, h.word⟩ t setup acts before g after
  alone : ∀ f ∈ before ++ after, ∀ r, responseIn h f f.length = some r → r.seq ≠ seq
  others : ∀ t' msg len r, t' ≠ t → .dispatched t' msg len ∈ c.log → responseIn h msg len = some r →
    r.seq ≠ seq

/-- Whatever else the server does, among other frames of a host like `h₁` it serves `f`, with an answer of
which `Q` holds. -/
def ServesOn (h₁ h₂ : Host) (t : Nat) (b : Boot ω₂) (x : Option (Provider m ω₂)) (inp : Struct m.params)
    (f : Bytes) (Q : Node h₂ ω₂ → Bytes → Prop) : Prop :=
  ∀ (E : Env) (setup acts : List (Action ω₂)) (n₀ n : Node h₂ ω₂) (before after : List Bytes),
    Provides E b x setup acts n₀ n → FrameArrives ⟨h₁.order, h₂.word⟩ t setup acts before f after →
      ∃ k g, ServedAt E t x inp acts before f after n₀ k n g ∧ Q k g

/-- Whatever else the caller does, once it got `g` its thread can finish the call, and the stub returns `y`. -/
def ReturnsOn (E : Env) (t : Nat) (o : ByteOrder) (seq : UInt32) (i : Nat) (g : Bytes)
    (setup : List (Action ω)) (c₁ : Node h ω) (y : Outcome m) : Prop :=
  ∀ (acts : List (Action ω)) (before after : List Bytes) (c : Node h ω),
    Hears E t o seq i g setup acts before after c₁ c →
      ∃ (own : List (Action ω)) (c' : Node h ω), (∀ a ∈ own, OwnStep i a) ∧
        Runs.run (Node.step E) c own = some c' ∧ StubReturns c' i y

/-- The hosts have one byte order, and both ends of the connection can send and receive. -/
structure Connected (h₁ h₂ : Host) (t₁ t₂ : Nat) (b₁ : Boot ω₁) (b₂ : Boot ω₂) : Prop where
  order : h₁.order = h₂.order
  sendLeft : b₁.hasSend t₁ = true
  sendRight : b₂.hasSend t₂ = true
  recvLeft : b₁.hasRecv t₁ = true
  recvRight : b₂.hasRecv t₂ = true

theorem hasSend_of_run {b : Boot ω} {acts : List (Action ω)} {n : Node h ω}
    (hrun : Runs.run (Node.step E) (b.node h) acts = some n) (t : Nat) :
    (n.transports t).hasSend = b.hasSend t := by
  have hleads : (b.node h).Leads E (fun _ => True) n := Node.run_leads (fun _ _ => trivial) hrun
  exact (hleads.functions t).1

theorem dispatchedOn_around {l l' : List Event} {before after : List Bytes} {f : Bytes}
    (hbefore : dispatchedOn t l = before.map withLength) (hafter : dispatchedOn t l' = after.map withLength) :
    dispatchedOn t (l ++ .dispatched t f f.length :: l') = (before ++ f :: after).map withLength := by
  rw [dispatchedOn_append, hbefore, dispatchedOn_cons, hafter, List.map_append, List.map_cons]
  rfl

theorem StubCalls.run {setup : List (Action ω)} {tlv : Bytes} {b : Boot ω} {c₀ c₁ : Node h ω}
    (hcalls : StubCalls E t b m tlv setup c₀ c₁) :
    Runs.run (Node.step E) (b.node h) (setup ++ [.call (m.stubArgs tlv)]) = some c₁ :=
  Runs.run_append.mpr ⟨c₀, hcalls.before, Runs.run_cons.mpr ⟨c₁, hcalls.call, rfl⟩⟩

theorem StubCalls.sends {setup : List (Action ω)} {tlv : Bytes} {b : Boot ω} {c₀ c₁ : Node h ω}
    (hcalls : StubCalls E t b m tlv setup c₀ c₁) (hsend : b.hasSend t = true) (hsmall : tlv.length ≤ 67110912) :
    ∃ seq f, Sends t m tlv seq f c₀ c₁ := by
  have hcan : (c₀.transports t).hasSend = true := (hasSend_of_run hcalls.before t).trans hsend
  obtain ⟨seq, hnew⟩ := stub_calls hcalls.reliable hcalls.bound hcan hsmall hcalls.call
  have hlast : c₁.calls[c₀.calls.length]? = some ((m.stubArgs tlv).toCall seq .sent) := by
    rw [hnew, List.getElem?_concat_length]
  cases Node.step_cases hcalls.call with
  | thread _ hturn => cases hturn
  | call hfirst =>
    obtain ⟨seq', next, f, k, -, -, hf, hlog, hcalls'⟩ :=
      hfirst.sent hcalls.bound hlast fun st heq => by cases heq
    rw [hcalls.reliable.takes] at hlog
    exact ⟨seq', f, hf, hlog, hcalls'⟩

theorem Provides.dispatch {x : Option (Provider m ω₂)} {inp : Struct m.params} {tlv f : Bytes} {seq : UInt32}
    {setup acts : List (Action ω₂)} {c₀ c₁ : Node h₁ ω₁} {n₀ k n : Node h₂ ω₂}
    (hprov : Provides E₂ b₂ x setup acts n₀ n) (hsends : Sends t₁ m tlv seq f c₀ c₁)
    (horder : h₁.order = h₂.order) (hsend : b₂.hasSend t₂ = true) (hfits : m.Fits h₂.word)
    (hin : x.isSome → inp.All (FieldType.Carried h₁.order))
    (henc : ∀ w, (Provider.outcome x inp w).Encodes h₂.order)
    (htlv : tlv = Struct.wire h₁.order m.params inp) (hsmall : tlv.length ≤ 67110912)
    (hk : n₀.Leads E₂ (· ∈ acts) k) :
    ∃ ret, (rpcDispatchMessage E₂ t₂ f f.length k).log = k.log ++ .dispatched t₂ f f.length ::
      (ranEvents x inp ++ [.sent t₂ ((Provider.outcome x inp k.world).frame h₂.order seq) ret]) := by
  have hget : k.methods.get m.rpcname = x.map (Provider.entry h₂) := by
    rw [Node.Leads.methods hk hprov.kept, hprov.method]
  have hcan : (k.transports t₂).hasSend = true := by
    rw [(Node.Leads.functions hk t₂).1, hasSend_of_run hprov.before, hsend]
  have hrequest := hsends.request
  rw [htlv] at hrequest
  have hroom := m.room
  rw [htlv, Struct.wire_length] at hsmall
  exact dispatch_request hprov.grants hfits horder hin hrequest (by omega) hcan hget (henc k.world)

/-- A server of the same byte order that can receive and send serves the request like a local call. -/
theorem Provides.served {x : Option (Provider m ω₂)} {inp : Struct m.params} {tlv f : Bytes} {seq : UInt32}
    {setup acts : List (Action ω₂)} {c₀ c₁ : Node h₁ ω₁} {n₀ n : Node h₂ ω₂} {before after : List Bytes}
    (hprov : Provides E₂ b₂ x setup acts n₀ n) (hsends : Sends t₁ m tlv seq f c₀ c₁)
    (hconn : Connected h₁ h₂ t₁ t₂ b₁ b₂) (hfits : m.Fits h₂.word)
    (hin : x.isSome → inp.All (FieldType.Carried h₁.order))
    (henc : ∀ w, (Provider.outcome x inp w).Encodes h₂.order)
    (htlv : tlv = Struct.wire h₁.order m.params inp) (hsmall : tlv.length ≤ 67110912)
    (harr : FrameArrives ⟨h₁.order, h₂.word⟩ t₂ setup acts before f after) :
    ∃ k, ServedAt E₂ t₂ x inp acts before f after n₀ k n
      ((Provider.outcome x inp k.world).frame h₂.order seq) := by
  have hhost : (⟨h₁.order, h₂.word⟩ : Host) = h₂ := by rw [hconn.order]
  rw [hhost] at harr
  have hstart : Follows t₂ [] (b₂.node h₂) := initial_follows _ _ _ _ _ _ hconn.recvRight
  obtain ⟨a, b, hlog, hbefore, hafter⟩ := harr.dispatched hprov.grants hstart hprov.before hprov.run
  have hleads : n₀.Leads E₂ (· ∈ acts) n := Node.run_leads (fun _ hmem => hmem) hprov.run
  obtain ⟨k, hk, hklog, hrest⟩ := hleads.dispatching hlog
  have hserved := hprov.dispatch hsends hconn.order hconn.sendRight hfits hin henc htlv hsmall hk
  refine ⟨k, hk, ?_, hserved, hrest, ?_⟩
  · rw [hklog, hbefore]
  · rw [hlog, ← List.append_assoc, dispatchedOn_around hbefore hafter]

/-- The only response with the number is `g`. -/
theorem Hears.only {o : ByteOrder} {seq : UInt32} {i : Nat} {g : Bytes} {setup acts : List (Action ω)}
    {before after : List Bytes} {c₁ c : Node h ω} (hhears : Hears E t o seq i g setup acts before after c₁ c)
    {r : Response} (hr : responseIn h g g.length = some r) {l l' : List Event}
    (hlog : c.log = c₁.log ++ (l ++ .dispatched t g g.length :: l'))
    (hbefore : dispatchedOn t (c₁.log ++ l) = before.map withLength)
    (hafter : dispatchedOn t l' = after.map withLength) (t' : Nat) (msg : Bytes) (len : Nat) (r' : Response)
    (hmem : .dispatched t' msg len ∈ l ++ .dispatched t g g.length :: l')
    (hr' : responseIn h msg len = some r') (hseq : r'.seq = seq) : r' = r := by
  have ht : t' = t := by
    by_contra hne
    exact hhears.others t' msg len r' hne (by rw [hlog]; exact List.mem_append_right _ hmem) hr' hseq
  subst ht
  have hall : dispatchedOn t' c.log = (before ++ g :: after).map withLength := by
    rw [hlog, ← List.append_assoc, dispatchedOn_around hbefore hafter]
  have hin : (msg, len) ∈ dispatchedOn t' c.log := by
    apply List.mem_filterMap.mpr
    refine ⟨.dispatched t' msg len, ?_, if_pos rfl⟩
    rw [hlog]
    exact List.mem_append_right _ hmem
  rw [hall] at hin
  obtain ⟨f, hf, heq⟩ := List.mem_map.mp hin
  cases heq
  by_cases hsame : msg = g
  · subst hsame
    rw [hr'] at hr
    exact Option.some.inj hr
  · have hother : msg ∈ before ++ after := by
      rcases List.mem_append.mp hf with hf | hf
      · exact List.mem_append_left _ hf
      · exact List.mem_append_right _ ((List.mem_cons.mp hf).resolve_left hsame)
    exact absurd hseq (hhears.alone msg hother r' hr')

/-- A caller of the same byte order that can receive gets the answer, and its stub returns what the handler
returned. -/
theorem Hears.returns {y : Outcome m} {tlv f : Bytes} {seq : UInt32} {setup acts : List (Action ω₁)}
    {c₀ c₁ c : Node h₁ ω₁} {before after : List Bytes} (hcalls : StubCalls E₁ t₁ b₁ m tlv setup c₀ c₁)
    (hsends : Sends t₁ m tlv seq f c₀ c₁) (hconn : Connected h₁ h₂ t₁ t₂ b₁ b₂) (henc : y.Encodes h₂.order)
    (hhears : Hears E₁ t₁ h₂.order seq c₀.calls.length (y.frame h₂.order seq)
      (setup ++ [.call (m.stubArgs tlv)]) acts before after c₁ c) :
    ∃ (own : List (Action ω₁)) (c' : Node h₁ ω₁), (∀ a ∈ own, OwnStep c₀.calls.length a) ∧
      Runs.run (Node.step E₁) c own = some c' ∧ StubReturns c' c₀.calls.length y := by
  have hanswer := Outcome.answer_length henc
  have hr := responseIn_responseFrame h₁ seq (y.answer h₂.order).1 hanswer
  rw [hconn.order] at hr
  have harr := hhears.arrives
  have hhost : (⟨h₂.order, h₁.word⟩ : Host) = h₁ := by rw [← hconn.order]
  rw [hhost] at harr
  have hrun₁ := hcalls.run
  have hstart : Follows t₁ [] (b₁.node h₁) := initial_follows _ _ _ _ _ _ hconn.recvLeft
  obtain ⟨l, l', hlog, hbefore, hafter⟩ := harr.dispatched hcalls.reliable.grants hstart hrun₁ hhears.run
  have hsound : c₁.Sound := run_sound (initial_sound _ _ _ _ _ _) hrun₁
  have hwaits := (awaits_stub hsound hsends.calls (y.frame h₂.order seq)).run hr rfl (Nat.le_refl _)
    hhears.patient hhears.run
  have hunlocked : c.locked = false := by
    have hwhole := Runs.run_append.mpr ⟨c₁, hrun₁, hhears.run⟩
    apply run_unlocked (n := b₁.node h₁) rfl _ hwhole hhears.ok
    intro t' hmem
    rcases List.mem_append.mp hmem with hmem | hmem
    · rcases List.mem_append.mp hmem with hmem | hmem
      · exact hcalls.polls t' hmem
      · rw [List.mem_singleton] at hmem
        cases hmem
    · exact hhears.polls t' hmem
  have halone := hhears.only hr hlog hbefore hafter
  obtain ⟨own, c', pc, b, hown, hrun, hc, hphase, hb, -, hlen, htake⟩ := hwaits.returns (E := E₁) hr rfl
    (Nat.le_refl _) hhears.ok hunlocked hlog (List.mem_append_right _ List.mem_cons_self) halone
  have hbuf : (y.answer h₂.order).2.length ≤ rpcRespBufSize := hanswer
  rw [min_eq_left hbuf] at hlen htake
  rw [List.take_length] at htake
  refine ⟨own, c', hown, hrun, pc, _, b, _, hc, hphase, hb, hlen, ?_⟩
  exact stubReturn_answer hconn.order henc htake

/-- Without a `recv` nothing that arrives on the transport is looked at. -/
theorem Node.onData_deaf {buf polled : Bytes} {n n' : Node h ω} (hrecv : (n.transports t).hasRecv = false)
    (hstep : n.step E (.onData t buf polled) = some n') : n'.log = n.log ∧ n'.fault = n.fault := by
  rw [Node.step_onData_eq (Node.step_fault hstep)] at hstep
  dsimp only [Node.onData] at hstep
  rw [hrecv] at hstep
  cases hstep
  exact ⟨rfl, rfl⟩

/-- Without a `send` no dispatch sends anything. -/
theorem rpcDispatchMessage_mute {msg : Bytes} {len : Nat} {n : Node h ω}
    (hsend : (n.transports t).hasSend = false) :
    ∃ l, (rpcDispatchMessage E t msg len n).log = n.log ++ l ∧ sentIn l = [] := by
  obtain ⟨l, hl, hanswered⟩ := rpcDispatchMessage_answered (E := E) t msg len n
  cases hanswered with
  | nothing => exact ⟨_, hl, rfl⟩
  | request hkind hreq hran hsent =>
    by_cases hshort : len < sizeofRpcHeader
    · refine ⟨[.dispatched t msg len], ?_, rfl⟩
      unfold rpcDispatchMessage
      rw [if_pos hshort]
      rfl
    · have hdispatch : rpcDispatchMessage E t msg len n =
          rpcHandleRequest E t msg len (n.record (.dispatched t msg len)) := by
        unfold rpcDispatchMessage
        rw [if_neg hshort, hkind, if_neg Bool.false_ne_true]
      obtain ⟨l', hl', hcan⟩ := rpcHandleRequest_log (E := E) (t := t)
        (n := n.record (.dispatched t msg len)) hreq
      rcases hcan with ⟨hcan, -⟩ | ⟨-, hnone⟩
      · have hcan' : (n.transports t).hasSend = true := hcan.1
        rw [hsend] at hcan'
        cases hcan'
      · refine ⟨.dispatched t msg len :: l', ?_, hnone⟩
        rw [hdispatch, hl', Node.record, List.append_assoc]
        rfl

theorem received_nil (data : Bytes) : received data [] = data := by
  cases data with
  | nil => rfl
  | cons _ _ => rfl

theorem arrived_once (t : Nat) (data : Bytes) : arrived t ([.onData t data []] : List (Action ω)) = data := by
  rw [arrived_singleton, Action.chunk, if_pos rfl, received_nil]

/-- Bytes that arrive all at once. -/
theorem frameArrives_at_once {setup : List (Action ω)} {before after : List Bytes} {f : Bytes}
    (hsetup : arrived t setup = []) (hframes : ∀ g ∈ before ++ f :: after, (wireFraming h.order).IsFrame g)
    (hlen : ∀ g ∈ before ++ f :: after, g.length < 2 ^ h.word.bits) :
    FrameArrives h t setup [.onData t (before ++ f :: after).flatten []] before f after := by
  have hf : 0 < f.length := (hframes f (by simp)).pos
  refine ⟨by rw [hsetup, List.nil_append, arrived_once], hframes, hlen, ?_⟩
  rw [hsetup]
  simp only [List.flatten_append, List.flatten_cons, List.flatten_nil, List.append_nil, List.length_append,
    List.length_nil]
  omega

theorem exists_provides (h : Host) (b : Boot ω) (x : Option (Provider m ω)) (t : Nat) {data : Bytes}
    (hbits : b.hasRecv t = true → (wireFraming h.order).Below (2 ^ h.word.bits) data) :
    ∃ setup, ∃ n₀ n : Node h ω, Provides Env.granting b x setup [.onData t data []] n₀ n ∧
      arrived t setup = [] ∧ n₀.log = [] ∧ n₀.transports = (b.node h).transports := by
  have hE : Env.granting.Grants := Env.granting_reliable.grants
  have hgo : ∀ n₀ : Node h ω, n₀.fault = false → n₀.locked = false → n₀.transports = (b.node h).transports →
      ∃ n, Runs.run (Node.step Env.granting) n₀ [.onData t data []] = some n := by
    intro n₀ hok hunlocked htransports
    have hsome : (n₀.onData Env.granting t data []).isSome := by
      apply Node.onData_isSome hE hunlocked
      rw [htransports, received_nil]
      exact hbits
    obtain ⟨n, hn⟩ := Option.isSome_iff_exists.mp hsome
    exact ⟨n, Runs.run_cons.mpr ⟨n, (Node.step_onData_eq hok t data []).trans hn, rfl⟩⟩
  cases x with
  | none =>
    obtain ⟨n, hrun⟩ := hgo (b.node h) rfl rfl rfl
    exact ⟨[], b.node h, n, ⟨hE, rfl, hrun, rfl, by simp⟩, rfl, rfl, rfl⟩
  | some x =>
    obtain ⟨methods, mallocs, hreg, hget⟩ := rpcRegisterMethod_granted hE m.rpcname (x.entry h)
      (n := b.node h) rfl
    obtain ⟨n, hrun⟩ := hgo { b.node h with methods := methods, mallocs := mallocs } rfl rfl rfl
    refine ⟨[.registerMethod m.rpcname (x.entry h)], _, n, ⟨hE, Runs.run_cons.mpr ⟨_, hreg, rfl⟩, hrun, ?_,
      by simp⟩, rfl, rfl, rfl⟩
    rw [hget, if_pos ((stringKey h.word).equiv.refl _)]
    rfl

/-- A frame of 255 zero bytes, whose length reads as 0xFF000000 in the other byte order. -/
def strayFrame (o : ByteOrder) : Bytes :=
  (⟨0, 0, htonl 255, 0⟩ : RpcHeader).store o ++ List.replicate 255 0

theorem length_strayFrame (o : ByteOrder) : (strayFrame o).length = 267 := by
  rw [strayFrame, List.length_append, RpcHeader.store_length, List.length_replicate]
  rfl

theorem isFrame_strayFrame (o : ByteOrder) : (wireFraming o).IsFrame (strayFrame o) := by
  have hann : announced o (strayFrame o) = 255 := by
    rw [strayFrame, announced_store]
    decide
  rw [isFrame_iff, hann, length_strayFrame]
  decide

theorem need_strayFrame {o₁ o₂ : ByteOrder} (hne : o₁ ≠ o₂) (rest : Bytes) :
    (wireFraming o₂).need (strayFrame o₁ ++ rest) = some (sizeofRpcHeader + 0xFF000000) := by
  have hann : announced o₂ (strayFrame o₁ ++ rest) = 0xFF000000 := by
    rw [strayFrame, List.append_assoc, announced, RpcHeader.load_store_cross]
    simp only [RpcHeader.cross]
    rw [ntohl_cross32_htonl, cross32, if_neg hne]
    decide
  rw [need_eq_some, hann, List.length_append, length_strayFrame]
  exact ⟨by simp only [sizeofRpcHeader]; omega, rfl⟩

/-- On a host of the other byte order such a frame holds back all that follows. -/
theorem cut_strayFrame {o₁ o₂ : ByteOrder} (hne : o₁ ≠ o₂) {rest : Bytes} (hrest : rest.length < 2 ^ 28) :
    (wireFraming o₂).cut (strayFrame o₁ ++ rest) = none := by
  have hlen : (strayFrame o₁ ++ rest).length < sizeofRpcHeader + 0xFF000000 := by
    rw [List.length_append, length_strayFrame]
    simp only [sizeofRpcHeader]
    omega
  simp only [Framing.cut, need_strayFrame hne, if_neg (Nat.not_le.mpr hlen)]

theorem Sends.hasSend {setup : List (Action ω)} {tlv f : Bytes} {b : Boot ω} {c₀ c₁ : Node h ω} {seq : UInt32}
    (hsends : Sends t m tlv seq f c₀ c₁) (hcalls : StubCalls E t b m tlv setup c₀ c₁) :
    b.hasSend t = true := by
  have hlast : c₁.calls[c₀.calls.length]? = some ((m.stubArgs tlv).toCall seq .sent) := by
    rw [hsends.calls, List.getElem?_concat_length]
  cases Node.step_cases hcalls.call with
  | thread _ hturn => cases hturn
  | call hfirst =>
    obtain ⟨-, -, -, -, hcan, -⟩ := hfirst.sent hcalls.bound hlast fun st heq => by cases heq
    rw [← hasSend_of_run hcalls.before t, hcan]

theorem Sends.frame {tlv f : Bytes} {c₀ c₁ : Node h ω} {seq : UInt32} (hsends : Sends t m tlv seq f c₀ c₁)
    (hsmall : tlv.length ≤ 67110912) : (wireFraming h.order).IsFrame f ∧ f.length < 2 ^ 28 := by
  have hlen : f.length < 2 ^ 28 := by
    have hargs : sizeofRpcHeader + strlen m.rpcname + tlv.length < 2 ^ 28 := stubArgs_length hsmall
    rw [requestMessage_eq_some hsends.request]
    simp only [List.length_append, RpcHeader.store_length, length_cstr]
    omega
  exact ⟨(saysLength_request hsends.request).isFrame (hlen.trans (by decide)), hlen⟩

section Necessary

variable {x : Option (Provider m ω₂)} {inp : Struct m.params} {f : Bytes} {Q : Node h₂ ω₂ → Bytes → Prop}

/-- The server gets `f` and nothing else. -/
theorem ServesOn.alone (hserves : ServesOn h₁ h₂ t₂ b₂ x inp f Q) (hframe : (wireFraming h₁.order).IsFrame f)
    (hlen : f.length < 2 ^ 28)
    (hbits : b₂.hasRecv t₂ = true → (wireFraming h₂.order).Below (2 ^ h₂.word.bits) f) :
    ∃ setup n₀ n k g, Provides Env.granting b₂ x setup [.onData t₂ f []] n₀ n ∧ n₀.log = [] ∧
      n₀.transports = (b₂.node h₂).transports ∧
      ServedAt Env.granting t₂ x inp [.onData t₂ f []] [] f [] n₀ k n g ∧ Q k g := by
  have hword := h₂.word.two_pow_le
  obtain ⟨setup, n₀, n, hprov, hsetup, hlog, htransports⟩ := exists_provides h₂ b₂ x t₂ hbits
  have harr : FrameArrives ⟨h₁.order, h₂.word⟩ t₂ setup [.onData t₂ ([] ++ f :: []).flatten []] [] f [] :=
    frameArrives_at_once hsetup (by simpa using hframe) (by simp; omega)
  have hflat : ([] ++ f :: [] : List Bytes).flatten = f := by simp
  rw [hflat] at harr
  obtain ⟨k, g, hserved, hQ⟩ := hserves _ _ _ _ _ _ _ hprov harr
  exact ⟨setup, n₀, n, k, g, hprov, hlog, htransports, hserved, hQ⟩

theorem ServesOn.hasRecv (hserves : ServesOn h₁ h₂ t₂ b₂ x inp f Q)
    (hframe : (wireFraming h₁.order).IsFrame f) (hlen : f.length < 2 ^ 28) : b₂.hasRecv t₂ = true := by
  by_contra hdeaf
  obtain ⟨setup, n₀, n, k, g, hprov, hlog, htransports, hserved, -⟩ :=
    hserves.alone hframe hlen fun hrecv => absurd hrecv hdeaf
  obtain ⟨n', hstep, hnil⟩ := Runs.run_cons.mp hprov.run
  cases hnil
  have hstill := (Node.onData_deaf (by rw [htransports]; exact Bool.eq_false_iff.mpr hdeaf) hstep).1
  have hall := hserved.all
  rw [hstill, hlog] at hall
  cases hall

theorem ServesOn.order (hserves : ServesOn h₁ h₂ t₂ b₂ x inp f Q)
    (hframe : (wireFraming h₁.order).IsFrame f) (hlen : f.length < 2 ^ 28) : h₁.order = h₂.order := by
  have hword := h₂.word.two_pow_le
  have hrecv := hserves.hasRecv hframe hlen
  by_contra hne
  have hcut := cut_strayFrame hne hlen
  have hbits : (wireFraming h₂.order).Below (2 ^ h₂.word.bits) (strayFrame h₁.order ++ f) := by
    rw [Framing.below_of_cut_none hcut]
    intro n hn
    rw [need_strayFrame hne] at hn
    cases hn
    simp only [sizeofRpcHeader]
    omega
  obtain ⟨setup, n₀, n, hprov, hsetup, hlog, htransports⟩ := exists_provides h₂ b₂ x t₂ fun _ => hbits
  have harr : FrameArrives ⟨h₁.order, h₂.word⟩ t₂ setup
      [.onData t₂ ([strayFrame h₁.order] ++ f :: []).flatten []] [strayFrame h₁.order] f [] := by
    apply frameArrives_at_once hsetup
    · intro g hg
      simp only [List.singleton_append, List.mem_cons, List.not_mem_nil, or_false] at hg
      rcases hg with rfl | rfl
      · exact isFrame_strayFrame _
      · exact hframe
    · intro g hg
      simp only [List.singleton_append, List.mem_cons, List.not_mem_nil, or_false] at hg
      change g.length < 2 ^ h₂.word.bits
      rcases hg with rfl | rfl
      · rw [length_strayFrame]
        omega
      · omega
  have hflat : ([strayFrame h₁.order] ++ f :: []).flatten = strayFrame h₁.order ++ f := by simp
  rw [hflat] at harr
  obtain ⟨k, g, hserved, -⟩ := hserves _ _ _ _ _ _ _ hprov harr
  have hstart : Follows t₂ [] n₀ := by
    refine ⟨?_, ?_, ?_⟩
    · rw [hlog]
      rfl
    · rw [htransports]
      rfl
    · rw [htransports]
      exact hrecv
  have hfollows := hstart.run hprov.grants (by rwa [List.nil_append, arrived_once]) hprov.run
  rw [List.nil_append, arrived_once] at hfollows
  have hall := hserved.all
  rw [hfollows.dispatched, Framing.frames_of_cut_none hcut] at hall
  cases hall

theorem ServedAt.hasSend {acts : List (Action ω₂)} {before after : List Bytes} {n₀ k n : Node h₂ ω₂}
    {g : Bytes} (hserved : ServedAt E t₂ x inp acts before f after n₀ k n g) :
    (n₀.transports t₂).hasSend = true := by
  rw [← (Node.Leads.functions hserved.reached t₂).1]
  by_contra hmute
  obtain ⟨l, hl, hnone⟩ : ∃ l, (rpcDispatchMessage E t₂ f f.length k).log = k.log ++ l ∧ sentIn l = [] :=
    rpcDispatchMessage_mute (Bool.eq_false_iff.mpr hmute)
  obtain ⟨ret, hlog⟩ := hserved.served
  rw [hl, List.append_cancel_left_eq] at hlog
  have hin : (t₂, g) ∈ sentIn l := by
    rw [hlog]
    exact List.mem_filterMap.mpr ⟨.sent t₂ g ret, by simp, rfl⟩
  rw [hnone] at hin
  cases hin

/-- The handler of a generated method runs only for a struct without NULL strings: the parser needs a TLV for
every field. -/
theorem Provider.runs_nonNull (x : Provider m ω₂) (hnul : inp.All FieldType.NulFree)
    (hshort : inp.All (FieldType.Short h.order)) {seq : UInt32} {e : Event}
    (hran : e ∈ (x.entry h).runs allOk ⟨seq, m.rpcname, Struct.wire h.order m.params inp,
      (Struct.wire h.order m.params inp).length⟩) : inp.All FieldType.NonNull := by
  unfold MethodEntry.runs at hran
  split at hran
  · next rc p hhandler hparam =>
    split at hran
    · cases hran
    · next hrc =>
      obtain rfl : rc = 0 := not_not.mp hrc
      obtain ⟨r, hparsed⟩ := parseStruct_eq_zero_iff.mp hparam
      have haccepts := accepts_wire_iff hnul hshort []
      rw [List.append_nil] at haccepts
      exact haccepts.mp ⟨p, r, hparsed⟩
  · cases hran

theorem ServedAt.nonNull {setup acts : List (Action ω₂)} {before after : List Bytes} {n₀ k n : Node h₂ ω₂}
    {g : Bytes} {seq : UInt32} {c₀ c₁ : Node h₁ ω₁} {tlv : Bytes}
    (hserved : ServedAt E₂ t₂ x inp acts before f after n₀ k n g) (hprov : Provides E₂ b₂ x setup acts n₀ n)
    (hsends : Sends t₁ m tlv seq f c₀ c₁) (horder : h₁.order = h₂.order) (hfits : m.Fits h₂.word)
    (hnul : inp.All FieldType.NulFree) (hshort : inp.All (FieldType.Short h₁.order))
    (htlv : tlv = Struct.wire h₁.order m.params inp) (hsmall : tlv.length ≤ 67110912) (hx : x.isSome) :
    inp.All FieldType.NonNull := by
  obtain ⟨x, rfl⟩ := Option.isSome_iff_exists.mp hx
  have hget : k.methods.get m.rpcname = some (x.entry h₂) := by
    rw [Node.Leads.methods hserved.reached hprov.kept, hprov.method]
    rfl
  have hroom := m.room
  obtain ⟨hreq, hdispatch⟩ := dispatch_handles (E := E₂) (t := t₂) horder hsends.request (by omega) k
  have hall : (fun i => E₂.heapMalloc ((k.record (.dispatched t₂ f f.length)).mallocs + i)) = allOk := by
    funext i
    exact hprov.grants _
  have hlog := rpcHandleRequest_answer (E := E₂) (t := t₂) (n := k.record (.dispatched t₂ f f.length))
    (m := x.entry h₂) (x.entry_fits hfits) x.entry_within hreq hget
  have hrecord : (k.record (.dispatched t₂ f f.length)).log = k.log ++ [.dispatched t₂ f f.length] := rfl
  obtain ⟨ret, hwant⟩ := hserved.served
  rw [hall] at hlog
  rw [hdispatch, hlog, hrecord, List.append_assoc, List.append_cancel_left_eq, List.singleton_append,
    List.cons.injEq] at hwant
  have hmem : Event.ran m.rpcname ⟨m.params, inp⟩ ∈ ranEvents (some x) inp ++ [.sent t₂ g ret] := by
    simp [ranEvents]
  rw [← hwant.2] at hmem
  rcases List.mem_append.mp hmem with hran | hsent
  · rw [htlv, horder] at hran
    exact x.runs_nonNull hnul (horder ▸ hshort) hran
  · split at hsent
    · cases hsent
    · unfold answerEvents at hsent
      split at hsent
      · rw [List.mem_singleton] at hsent
        cases hsent
      · cases hsent

/-- An answer may arrive where the caller has no `recv`. -/
theorem exists_hears {setup : List (Action ω₁)} {c₁ : Node h₁ ω₁} {g : Bytes} {o : ByteOrder} (seq : UInt32)
    (i : Nat) (hdeaf : (c₁.transports t₁).hasRecv = false) (hok : c₁.fault = false)
    (hunlocked : c₁.locked = false) (hnone : ∀ t msg len, .dispatched t msg len ∉ c₁.log)
    (hquiet : arrived t₁ setup = []) (hframe : (wireFraming o).IsFrame g) (hlen : g.length < 2 ^ 28) :
    ∃ c, Hears Env.granting t₁ o seq i g setup [.onData t₁ g []] [] [] c₁ c ∧ c.log = c₁.log := by
  have hword := h₁.word.two_pow_le
  have hsome : (c₁.onData Env.granting t₁ g []).isSome := by
    apply Node.onData_isSome Env.granting_reliable.grants hunlocked
    intro hrecv
    rw [hdeaf] at hrecv
    cases hrecv
  obtain ⟨c, hc⟩ := Option.isSome_iff_exists.mp hsome
  have hstep : c₁.step Env.granting (.onData t₁ g []) = some c := (Node.step_onData_eq hok t₁ g []).trans hc
  obtain ⟨hstill, hfault⟩ := Node.onData_deaf hdeaf hstep
  refine ⟨c, ⟨Runs.run_cons.mpr ⟨c, hstep, rfl⟩, hfault.trans hok, by simp, ?_, ?_, by simp, ?_⟩, hstill⟩
  · intro t' hmem
    rw [List.mem_singleton] at hmem
    cases hmem
    exact absurd hframe.pos (by simp)
  · have harr : FrameArrives ⟨o, h₁.word⟩ t₁ setup [.onData t₁ ([] ++ g :: []).flatten []] [] g [] :=
      frameArrives_at_once hquiet (by simpa using hframe) (by simp; omega)
    rwa [show ([] ++ g :: [] : List Bytes).flatten = g by simp] at harr
  · intro t' msg len r _ hmem
    rw [hstill] at hmem
    exact absurd hmem (hnone t' msg len)

/-- A caller without a `recv` never learns the answer. -/
theorem ReturnsOn.hasRecv {setup : List (Action ω₁)} {tlv g : Bytes} {c₀ c₁ : Node h₁ ω₁} {seq : UInt32}
    {o : ByteOrder} {y : Outcome m}
    (hreturns : ReturnsOn Env.granting t₁ o seq c₀.calls.length g (setup ++ [.call (m.stubArgs tlv)]) c₁ y)
    (hcalls : StubCalls Env.granting t₁ b₁ m tlv setup c₀ c₁) (hsends : Sends t₁ m tlv seq f c₀ c₁)
    (hlog : c₀.log = []) (hok : c₁.fault = false) (hunlocked : c₁.locked = false)
    (hquiet : arrived t₁ setup = []) (hframe : (wireFraming o).IsFrame g) (hlen : g.length < 2 ^ 28) :
    b₁.hasRecv t₁ = true := by
  by_contra hnone
  have hrun₁ := hcalls.run
  have hleads : (b₁.node h₁).Leads Env.granting (fun _ => True) c₁ := Node.run_leads (fun _ _ => trivial) hrun₁
  have hdeaf : (c₁.transports t₁).hasRecv = false :=
    (hleads.functions t₁).2.trans (Bool.eq_false_iff.mpr hnone)
  have hundispatched : ∀ t msg len, .dispatched t msg len ∉ c₁.log := by
    intro t msg len hmem
    rw [hsends.log, hlog, List.nil_append, List.mem_singleton] at hmem
    cases hmem
  have hquiet₁ : arrived t₁ (setup ++ [.call (m.stubArgs tlv)]) = [] := by
    rw [arrived_append, hquiet]
    rfl
  -- the answer arrives, and nothing happens
  obtain ⟨c, hhears, hstill⟩ := exists_hears seq c₀.calls.length hdeaf hok hunlocked hundispatched
    hquiet₁ hframe hlen
  obtain ⟨own, c', hown, hrun, pc, st, b, len, hpc, hphase, -, -, -⟩ := hreturns _ _ _ _ hhears
  -- so that the call has nothing to return
  have hsound : c'.Sound := run_sound (run_sound (run_sound (initial_sound _ _ _ _ _ _) hrun₁) hhears.run) hrun
  have hpcSound := hsound.calls _ _ hpc
  obtain ⟨t', msg, len', r, hmem, -⟩ := hpcSound.answered (hpcSound.returned st hphase).1
  rw [OwnStep.run_log hown hrun, hstill] at hmem
  exact hundispatched t' msg len' hmem

end Necessary

end CcRpc
