import CcRpc.BufferRelease
import CcRpc.Drain
import CcRpc.StubBuffer

/-!
# A remote call is a local call

The stub of a method encodes the struct, calls, and parses the answer. Once everything the two nodes sent
has arrived, the handler has run once on a struct equal to the caller's, and the caller can return what
a call of the handler on the spot would have given.
-/

namespace CcRpc

variable {h h₁ h₂ : Host} {ω ω₁ ω₂ : Type} {E E₁ E₂ : Env} {t₁ t₂ : Nat} {b₁ : Boot ω₁} {b₂ : Boot ω₂}

section Stub

variable (m : RemoteMethod)

theorem stub_room (b : Bytes) (l : Nat) (hb : some (List.replicate rpcRespBufSize 0) = some b)
    (hl : some rpcRespBufSize = some l) : l ≤ b.length := by
  cases hb
  cases hl
  rw [List.length_replicate]

/-- What `rpc_call_X` hands to `rpc_call_with_tlv`. -/
def RemoteMethod.stubArgs (tlv : Bytes) : CallArgs where
  name := m.rpcname
  tlv := tlv
  outTlv := some (List.replicate rpcRespBufSize 0)
  outLen := some rpcRespBufSize
  room := stub_room

/-- `rpc_call_X` after `rpc_call_with_tlv` has returned `st`, with `out` before the parser: the return
value and `out`. -/
def stubReturn (h : Host) (st : Int) (resp : Bytes) (respLen : Nat) (out : Struct m.results) :
    Option (Int × Struct m.results) :=
  if st = 0 then parseStruct h.order m.results allOk resp respLen else some (st, out)

variable {m}

/-- What a stub makes of an outcome. -/
def Outcome.returns : Outcome m → Struct m.results → Int × Struct m.results
  | none, out => (RpcStatus.methodNotFound.code.toNat, out)
  | some (rc, r), out => if rc = 0 then (0, r) else (RpcStatus.internalError.code.toNat, out)

/-- The call has returned, and its stub returns what the outcome says. -/
def StubReturns (n : Node h ω) (c : Nat) (y : Outcome m) : Prop :=
  ∃ pc st b len, n.calls[c]? = some pc ∧ pc.phase = .returned 0 st ∧ pc.buf = some b ∧
    pc.outLen = some len ∧ ∀ out, stubReturn m h st b len out = some (y.returns out)

/-- A response of the outcome is what the stub needs. -/
theorem stubReturn_answer (horder : h₁.order = h₂.order) {y : Outcome m} (hy : y.Encodes h₂.order)
    {b : Bytes} (hb : b.take (y.answer h₂.order).2.length = (y.answer h₂.order).2)
    (out : Struct m.results) :
    stubReturn m h₁ ((y.answer h₂.order).1.code.toNat : Int) b (y.answer h₂.order).2.length out =
      some (y.returns out) := by
  cases y with
  | none => rfl
  | some y =>
    obtain ⟨rc, r⟩ := y
    by_cases hrc : rc = 0
    · subst hrc
      obtain ⟨hcarried, -⟩ := hy r rfl
      rw [Outcome.answer_ok] at hb ⊢
      have hsplit : b = Struct.wire h₂.order m.results r ++ b.drop (Struct.wire h₂.order m.results r).length := by
        conv_lhs => rw [← List.take_append_drop (Struct.wire h₂.order m.results r).length b, hb]
      have hparse := parseStruct_carried horder.symm hcarried
        (b.drop (Struct.wire h₂.order m.results r).length)
      rw [← hsplit] at hparse
      exact hparse
    · rw [Outcome.answer_failed _ hrc]
      unfold stubReturn Outcome.returns
      simp only [hrc, if_false]
      rfl

theorem Struct.tlvSize_le {o : ByteOrder} {s : Schema} {v : Struct s} (hv : v.All (FieldType.Short o)) :
    Struct.tlvSize s v ≤ s.length * 65538 := by
  induction s with
  | nil => exact Nat.le_refl 0
  | cons t ts ih =>
    obtain ⟨v, vs⟩ := v
    have hrest := ih hv.2
    have hfield : t.tlvSize v ≤ 65538 := by
      have hshort := hv.1
      cases t with
      | string =>
        cases v with
        | none => exact Nat.zero_le _
        | some s =>
          have hle := hshort (cstr s) rfl
          rw [length_cstr] at hle
          change 3 + strlen s ≤ 65538
          omega
      | u32 => exact (by decide : 7 ≤ 65538)
      | i32 => exact (by decide : 7 ≤ 65538)
      | bytes =>
        have hle := hshort v rfl
        change 3 + List.length v ≤ 65538
        omega
    rw [List.length_cons]
    change t.tlvSize v + Struct.tlvSize ts vs ≤ _
    omega

/-- The request of a method whose struct fits the server's buffer is far from 2 GiB. -/
theorem request_small {w : WordSize} {o : ByteOrder} {s : Schema} {v : Struct s}
    (hv : v.All (FieldType.Short o)) (hfit : s.sizeof w ≤ rpcMaxParamSize) :
    Struct.tlvSize s v ≤ 67110912 := by
  have hfields := s.four_mul_length_le_sizeof w
  have hsize := Struct.tlvSize_le hv
  simp only [rpcMaxParamSize] at hfit
  omega

end Stub

theorem intOfSizeT_nonneg {v : Nat} (hv : v < 2 ^ 31) : 0 ≤ intOfSizeT v := by
  unfold intOfSizeT
  rw [BitVec.toInt_ofNat', Int.bmod_eq_of_le (by omega) (by omega)]
  exact Int.natCast_nonneg v

theorem rpcSendRequestTlv_granted (hE : E.Reliable) {t : Nat} (seq : UInt32) {name tlv : Bytes}
    {n : Node h ω} (hsend : (n.transports t).hasSend = true)
    (hsmall : sizeofRpcHeader + strlen name + tlv.length < 2 ^ 31) :
    0 ≤ (rpcSendRequestTlv E t seq name tlv n).1 := by
  have hword := h.word.two_pow_le
  have hmsg := requestMessage_eq h seq name tlv
  rw [if_pos (by omega)] at hmsg
  unfold rpcSendRequestTlv
  simp only [Node.heapMalloc, hE.grants _, hsend, if_true, hmsg, Node.send, hE.takes]
  apply intOfSizeT_nonneg
  simp only [List.length_append, RpcHeader.store_length, length_cstr]
  omega

theorem rpcCallWithTlv_granted (hE : E.Reliable) {a : CallArgs} {n n' : Node h ω} {t : Nat}
    (hbound : n.transportMap.get a.name = some t) (hsend : (n.transports t).hasSend = true)
    (hsmall : sizeofRpcHeader + strlen a.name + a.tlv.length < 2 ^ 31)
    (hstep : rpcCallWithTlv E a n = some n') : ∃ seq, n'.calls = n.calls ++ [a.toCall seq .sent] := by
  unfold rpcCallWithTlv at hstep
  rw [hbound] at hstep
  dsimp only at hstep
  split at hstep
  · cases hstep
  · obtain ⟨⟨seq, m⟩, hnext, rfl⟩ := Option.map_eq_some_iff.mp hstep
    obtain ⟨⟨s, next⟩, hloop, heq⟩ := Option.map_eq_some_iff.mp hnext
    cases heq
    refine ⟨seq, ?_⟩
    obtain ⟨pending, mallocs, hput⟩ := putEntry_granted hE.grants n.pending seq n.calls.length (n.mallocs + 1)
    simp only [Node.heapMalloc, hE.grants _, hE.waits, Bool.not_true, Bool.false_eq_true, if_false, hput]
    generalize hx : rpcSendRequestTlv E t seq a.name a.tlv _ = x
    have hret := rpcSendRequestTlv_granted hE seq (n := { n with
      nextSeq := next, mallocs := mallocs, waiters := n.waiters + 1, pending := pending }) hsend hsmall
    have hserve := rpcSendRequestTlv_serves (E := E) t seq a.name a.tlv ({ n with
      nextSeq := next, mallocs := mallocs, waiters := n.waiters + 1, pending := pending } : Node h ω)
    rw [hx] at hret hserve
    rw [if_neg (Int.not_lt.mpr hret)]
    exact congrArg (· ++ _) hserve.calls

section Call

variable {m : RemoteMethod} {setup acts : List (PairAction ω₁ ω₂)} {tlv : Bytes}
  {p₀ p₁ p : Pair h₁ h₂ ω₁ ω₂} {seq : UInt32} {f : Bytes}

theorem Conversation.hasSend {acts : List (PairAction ω₁ ω₂)}
    (conv : Conversation E₁ E₂ t₁ t₂ b₁ b₂ acts p) :
    (p.left.transports t₁).hasSend = b₁.hasSend t₁ ∧ (p.right.transports t₂).hasSend = b₂.hasSend t₂ := by
  obtain ⟨as, bs, hleft, -, hright, -⟩ := conv.nodes
  have hleads₁ : (b₁.node h₁).Leads E₁ (fun _ => True) p.left :=
    Node.run_leads (fun _ _ => trivial) hleft
  have hleads₂ : (b₂.node h₂).Leads E₂ (fun _ => True) p.right :=
    Node.run_leads (fun _ _ => trivial) hright
  exact ⟨(hleads₁.functions t₁).1, (hleads₂.functions t₂).1⟩

theorem Asks.answer_late {a : CallArgs} (hasks : Asks E₁ E₂ t₁ t₂ b₁ b₂ setup a acts p₀ p₁ p seq f)
    {g : Bytes} (hg : g ∈ messagesTaken t₁ p.left.log) (hkind : hasMethod h₂.order g = false)
    (hseq : messageSeq h₂.order g = seq) {l : List Event} (hl : p.left.log = p₁.left.log ++ l) :
    .dispatched t₁ g g.length ∈ l := by
  have hnot : g ∉ messagesTaken t₁ p₁.left.log := by
    intro hmem
    have hin := mem_responseSeqs hmem hkind
    have hsame : messagesTaken t₁ p₁.left.log = messagesTaken t₁ p₀.left.log := by
      rw [hasks.log, messagesTaken_append]
      exact List.append_nil _
    rw [hseq, hsame] at hin
    exact hasks.new (hasks.before.asked hin).2
  have hmem := hg
  rw [hl, messagesTaken_append] at hmem
  obtain ⟨len, hdispatched⟩ := mem_messagesTaken.mp ((List.mem_append.mp hmem).resolve_left hnot)
  have hlen := hasks.whole.delivers.2.dispatched (by rw [hl]; exact List.mem_append_right _ hdispatched)
  rw [← hlen]
  exact hdispatched

/-- The call of a stub waits from the start. -/
theorem awaits_stub {n₀ n₁ : Node h ω} (hsound : n₁.Sound)
    (hcalls : n₁.calls = n₀.calls ++ [(m.stubArgs tlv).toCall seq .sent]) (g : Bytes) :
    n₁.Awaits n₀.calls.length seq rpcRespBufSize g n₁ := by
  refine ⟨hsound, [], (m.stubArgs tlv).toCall seq .sent, (List.append_nil _).symm, ?_, ?_⟩
  · rw [hcalls, List.getElem?_concat_length]
  · refine ⟨rfl, rfl, rfl, rfl, ?_, ?_, .inl rfl, ?_⟩
    · intro hdone
      cases hdone
    · intro hdone
      cases hdone
    · intro t hmem
      cases hmem

/-- A call whose answer `g` has arrived can go on and returns it. -/
theorem Asks.returns (hasks : Asks E₁ E₂ t₁ t₂ b₁ b₂ setup (m.stubArgs tlv) acts p₀ p₁ p seq f)
    (hpatient : .left (.expire p₀.left.calls.length) ∉ acts)
    (hpolls : ∀ t, .left (.onData t [] []) ∉ setup ++ .left (.call (m.stubArgs tlv)) :: acts)
    (hothers : ∀ t msg len r, t ≠ t₁ → .dispatched t msg len ∈ p.left.log →
      responseIn h₁ msg len = some r → r.seq ≠ seq) {g : Bytes} {r : Response}
    (hg : g ∈ messagesTaken t₁ p.left.log) (hr : responseIn h₁ g g.length = some r) (hseq : r.seq = seq)
    (hwhole : r.msgLen ≤ r.payload.length) (hsmall : r.msgLen ≤ rpcRespBufSize) :
    ∃ (own : List (Action ω₁)) (n : Node h₁ ω₁) (pc : Call) (b : Bytes),
      (∀ a ∈ own, OwnStep p₀.left.calls.length a) ∧ Runs.run (Node.step E₁) p.left own = some n ∧
        n.calls[p₀.left.calls.length]? = some pc ∧ pc.phase = .returned 0 r.status.toNat ∧
          pc.buf = some b ∧ pc.outLen = some r.msgLen ∧ b.take r.msgLen = r.payload.take r.msgLen := by
  obtain ⟨hkind, hgseq⟩ := responseIn_header hr
  rw [hasks.whole.order] at hkind hgseq
  have hnumber : messageSeq h₂.order g = seq := hgseq.symm.trans hseq
  obtain ⟨as, bs, hbetween⟩ := Pair.run_between hasks.after
  obtain ⟨l, hl⟩ := Node.run_log hbetween.left
  have hlate := hasks.answer_late hg hkind hnumber hl
  have hsound : p₁.left.Sound := by
    obtain ⟨as₀, bs₀, hleft, -, -, -⟩ := hasks.before.nodes
    exact (run_sound (initial_sound _ _ _ _ _ _) hleft).step hasks.step
  have hstart := awaits_stub hsound hasks.calls g
  have hexpire : Action.expire p₀.left.calls.length ∉ as := by
    intro hin
    rcases hbetween.leftActs _ hin with ⟨hown, -⟩ | ⟨data, polled, -, heq⟩
    · exact hpatient hown
    · cases polled <;> cases heq
  have hwaits := hstart.run hr hseq hwhole hexpire hbetween.left
  have hunlocked : p.left.locked = false := by
    obtain ⟨as', bs', hall⟩ := Pair.run_between hasks.whole.run
    apply run_unlocked (n := b₁.node h₁) rfl _ hall.left hasks.ok
    intro t hin
    exact (hall.leftActs _ hin).not_empty hpolls t rfl
  obtain ⟨own, n, pc, b, hown, hrun, hc, hphase, hb, -, hlen, htake⟩ :=
    hwaits.returns (E := E₁) hr hseq hwhole hasks.ok hunlocked hl hlate (by
      intro t msg len r' hmem hr' hr'seq
      have ht : t = t₁ := by
        by_contra hne
        exact hothers t msg len r' hne (by rw [hl]; exact List.mem_append_right _ hmem) hr' hr'seq
      subst ht
      have hmem' : .dispatched t msg len ∈ p.left.log := by
        rw [hl]
        exact List.mem_append_right _ hmem
      obtain ⟨hkind', hseq'⟩ := responseIn_header hr'
      rw [hasks.whole.order] at hkind' hseq'
      have hsame : msg = g := by
        apply eq_of_nodup_seqs (hasks.whole.answers_nodup hasks.few hasks.ok)
          (mem_messagesTaken.mpr ⟨_, hmem'⟩) hg
        · rw [hkind']
          rfl
        · rw [hkind]
          rfl
        · rw [← hseq', hr'seq, hnumber]
      subst hsame
      rw [hasks.whole.delivers.2.dispatched hmem', hr] at hr'
      exact (Option.some.inj hr').symm)
  rw [min_eq_left hsmall] at hlen htake
  exact ⟨own, n, pc, b, hown, hrun, hc, hphase, hb, hlen, htake⟩

theorem stubEncode_wire {w : WordSize} {inp : Struct m.params} (hin : inp.All (FieldType.Short h₁.order))
    (hfit : m.params.sizeof w ≤ rpcMaxParamSize) :
    stubEncode h₁ m.params inp = some (Struct.wire h₁.order m.params inp) ∧
      (Struct.wire h₁.order m.params inp).length ≤ 67110912 := by
  have hword := h₁.word.two_pow_le
  have hsize := request_small hin hfit
  have hfields := m.params.four_mul_length_le_sizeof w
  simp only [rpcMaxParamSize] at hfit
  exact ⟨stubEncode_eq m.emitsParams (by omega), by rw [Struct.wire_length]; exact hsize⟩

theorem stubEncode_carried {w : WordSize} {inp : Struct m.params} (hin : inp.All (FieldType.Short h₁.order))
    (hfit : m.params.sizeof w ≤ rpcMaxParamSize) (htlv : stubEncode h₁ m.params inp = some tlv) :
    tlv = Struct.wire h₁.order m.params inp ∧ tlv.length ≤ 67110912 := by
  obtain ⟨hencode, hsmall⟩ := stubEncode_wire hin hfit
  rw [htlv] at hencode
  cases hencode
  exact ⟨rfl, hsmall⟩

theorem stubArgs_length (htlv : tlv.length ≤ 67110912) :
    sizeofRpcHeader + strlen (m.stubArgs tlv).name + (m.stubArgs tlv).tlv.length < 2 ^ 28 := by
  have hroom := m.room
  change sizeofRpcHeader + strlen m.rpcname + tlv.length < 2 ^ 28
  rw [m.strlen_rpcname]
  simp only [sizeofRpcHeader]
  omega

theorem stub_calls (hE : E.Reliable) {n n' : Node h ω} {t : Nat}
    (hbound : n.transportMap.get m.rpcname = some t) (hsend : (n.transports t).hasSend = true)
    (htlv : tlv.length ≤ 67110912) (hstep : n.step E (.call (m.stubArgs tlv)) = some n') :
    ∃ seq, n'.calls = n.calls ++ [(m.stubArgs tlv).toCall seq .sent] := by
  rw [Node.step_call_eq (Node.step_fault hstep)] at hstep
  exact rpcCallWithTlv_granted hE hbound hsend ((stubArgs_length htlv).trans (by decide)) hstep

theorem Conversation.asks_stub
    (conv : Conversation E₁ E₂ t₁ t₂ b₁ b₂ (setup ++ .left (.call (m.stubArgs tlv)) :: acts) p)
    (hbefore : Runs.run (Pair.step E₁ E₂ t₁ t₂) (Pair.initial h₁ h₂ b₁ b₂) setup = some p₀)
    (hbound : p₀.left.transportMap.get m.rpcname = some t₁) (hsend : b₁.hasSend t₁ = true)
    (hsmall : tlv.length ≤ 67110912) (hfew : p.left.calls.length + 2 < 2 ^ 32)
    (hok : p.left.fault = false) :
    ∃ p₁ seq f, Asks E₁ E₂ t₁ t₂ b₁ b₂ setup (m.stubArgs tlv) acts p₀ p₁ p seq f := by
  apply conv.asks hbefore hbound hfew hok
  intro n as hn _ _
  have hcan : (p₀.left.transports t₁).hasSend = true := (conv.before hbefore).1.hasSend.1.trans hsend
  obtain ⟨seq, hcalls⟩ := stub_calls conv.left hbound hcan hsmall hn
  refine ⟨(m.stubArgs tlv).toCall seq .sent, ?_, fun st heq => by cases heq⟩
  rw [hcalls, List.getElem?_concat_length]

/-- The node on the right serves the request of a stub. -/
theorem Asks.served (hasks : Asks E₁ E₂ t₁ t₂ b₁ b₂ setup (m.stubArgs tlv) acts p₀ p₁ p seq f)
    {x : Option (Provider m ω₂)} {inp : Struct m.params} (hfits : m.Fits h₂.word)
    (hin : inp.All (FieldType.Carried h₁.order)) (henc : ∀ w, (Provider.outcome x inp w).Encodes h₂.order)
    (htlv : tlv = Struct.wire h₁.order m.params inp) (hsmall : tlv.length ≤ 67110912)
    (hmethod : p₀.right.methods.get m.rpcname = x.map (Provider.entry h₂))
    (hkept : ∀ name e, .right (.registerMethod name e) ∈ acts → cstr name ≠ cstr m.rpcname)
    (hsend : b₂.hasSend t₂ = true) (htaken : f ∈ messagesTaken t₂ p.right.log) :
    (messagesTaken t₂ p.right.log).count f = 1 ∧
    ∃ k, p₀.right.Leads E₂ (ActsOn t₂ (.right · ∈ acts)) k ∧
      (rpcDispatchMessage E₂ t₂ f f.length k).log = k.log ++ .dispatched t₂ f f.length ::
        (ranEvents x inp ++ [.sent t₂ ((Provider.outcome x inp k.world).frame h₂.order seq)
          ((Provider.outcome x inp k.world).frame h₂.order seq).length]) ∧
      (rpcDispatchMessage E₂ t₂ f f.length k).Leads E₂ (ActsOn t₂ (.right · ∈ acts)) p.right := by
  obtain ⟨honce, k, l, hk, hl, hrest, -⟩ := hasks.dispatching htaken
  have hget : k.methods.get m.rpcname = x.map (Provider.entry h₂) := by
    rw [Node.Leads.methods hk, hmethod]
    intro name e hact
    rcases hact with ⟨hown, -⟩ | ⟨data, polled, -, heq⟩
    · exact hkept name e hown
    · cases polled <;> cases heq
  have hcan : (k.transports t₂).hasSend = true := by
    rw [(Node.Leads.functions hk t₂).1, hasks.before.hasSend.2, hsend]
  have hrequest : requestMessage h₁ seq m.rpcname (Struct.wire h₁.order m.params inp) = some f := by
    rw [← htlv]
    exact hasks.request
  have hroom := m.room
  rw [htlv, Struct.wire_length] at hsmall
  obtain ⟨ret, hserved⟩ := dispatch_request hasks.whole.right.grants hfits hasks.whole.order (fun _ => hin)
    hrequest (by omega) hcan hget (henc k.world)
  obtain ⟨z, hz⟩ := Node.Leads.log hrest
  obtain ⟨as, bs, -, -, hright, -⟩ := hasks.whole.nodes
  have hret : ret = ((Provider.outcome x inp k.world).frame h₂.order seq).length := by
    apply run_taken hasks.whole.right hright t₂ ((Provider.outcome x inp k.world).frame h₂.order seq, ret)
    rw [mem_sendsOn, hz, hserved]
    simp
  rw [hret] at hserved
  exact ⟨honce, k, hk, hserved, hrest⟩

/-- The call made in `p₀` was as good as a local one. Its request was dispatched once, after the call was
made, at a node `k` on the way to `p`; the handler ran once, on the struct that the caller passed in; and
from `p` the thread of the caller can go on, and its stub returns what the handler would have returned on
the spot. -/
def ServedLocally (E₁ E₂ : Env) (t₂ : Nat) (acts : List (PairAction ω₁ ω₂)) (x : Option (Provider m ω₂))
    (inp : Struct m.params) (p₀ p : Pair h₁ h₂ ω₁ ω₂) : Prop :=
  ∃ f k g own n, (messagesTaken t₂ p.right.log).count f = 1 ∧
    p₀.right.Leads E₂ (ActsOn t₂ (.right · ∈ acts)) k ∧
    (rpcDispatchMessage E₂ t₂ f f.length k).log =
      k.log ++ .dispatched t₂ f f.length :: (ranEvents x inp ++ [.sent t₂ g g.length]) ∧
    (rpcDispatchMessage E₂ t₂ f f.length k).Leads E₂ (ActsOn t₂ (.right · ∈ acts)) p.right ∧
    (∀ a ∈ own, OwnStep p₀.left.calls.length a) ∧ Runs.run (Node.step E₁) p.left own = some n ∧
    StubReturns n p₀.left.calls.length (Provider.outcome x inp k.world)

/-- What the caller and the provider of a method see to: the struct can be carried, both structs fit the
static buffers of the other node, the results can be carried and encoded, the name is bound to the
connection, and the other node has the method under it, or none, and keeps it so. -/
structure Serves (t₁ t₂ : Nat) (b₁ : Boot ω₁) (b₂ : Boot ω₂) (acts : List (PairAction ω₁ ω₂))
    (x : Option (Provider m ω₂)) (inp : Struct m.params) (tlv : Bytes) (p₀ : Pair h₁ h₂ ω₁ ω₂) : Prop where
  carried : inp.All (FieldType.Carried h₁.order)
  fits : m.Fits h₂.word
  encodes : ∀ w, (Provider.outcome x inp w).Encodes h₂.order
  encoded : stubEncode h₁ m.params inp = some tlv
  bound : p₀.left.transportMap.get m.rpcname = some t₁
  method : p₀.right.methods.get m.rpcname = x.map (Provider.entry h₂)
  kept : ∀ name e, .right (.registerMethod name e) ∈ acts → cstr name ≠ cstr m.rpcname
  sendLeft : b₁.hasSend t₁ = true
  sendRight : b₂.hasSend t₂ = true

theorem Asks.servedLocally (hasks : Asks E₁ E₂ t₁ t₂ b₁ b₂ setup (m.stubArgs tlv) acts p₀ p₁ p seq f)
    {x : Option (Provider m ω₂)} {inp : Struct m.params} (hserves : Serves t₁ t₂ b₁ b₂ acts x inp tlv p₀)
    (hwire : tlv = Struct.wire h₁.order m.params inp) (hsmall : tlv.length ≤ 67110912)
    (hpatient : .left (.expire p₀.left.calls.length) ∉ acts)
    (hpolls : ∀ t, .left (.onData t [] []) ∉ setup ++ .left (.call (m.stubArgs tlv)) :: acts)
    (hothers : ∀ t msg len r, t ≠ t₁ → .dispatched t msg len ∈ p.left.log →
      responseIn h₁ msg len = some r → r.seq ≠ seq)
    (hquiet : p.toRight = [] ∧ p.toLeft = []) : ServedLocally E₁ E₂ t₂ acts x inp p₀ p := by
  obtain ⟨hright, hleft⟩ := hasks.whole.delivers
  rw [hquiet.1] at hright
  rw [hquiet.2] at hleft
  -- the request has arrived and was served
  have htaken : f ∈ messagesTaken t₂ p.right.log := by
    rw [hright.all_taken]
    exact hasks.mem
  obtain ⟨honce, k, hk, hserved, hrest⟩ := hasks.served hserves.fits hserves.carried hserves.encodes hwire
    hsmall hserves.method hserves.kept hserves.sendRight htaken
  have hanswer := Outcome.answer_length (hserves.encodes k.world)
  -- so has its response
  have hg : (Provider.outcome x inp k.world).frame h₂.order seq ∈ messagesTaken t₁ p.left.log := by
    obtain ⟨z, hz⟩ := Node.Leads.log hrest
    rw [hleft.all_taken, mem_messagesSent]
    refine ⟨((Provider.outcome x inp k.world).frame h₂.order seq).length, ?_⟩
    rw [hz, hserved]
    simp
  have hr := responseIn_responseFrame h₁ seq ((Provider.outcome x inp k.world).answer h₂.order).1 hanswer
  rw [hasks.whole.order] at hr
  have hbuf : ((Provider.outcome x inp k.world).answer h₂.order).2.length ≤ rpcRespBufSize := hanswer
  obtain ⟨own, n, pc, b, hown, hrun, hc, hphase, hb, hlen, htake⟩ :=
    hasks.returns hpatient hpolls hothers hg hr rfl (Nat.le_refl _) hbuf
  rw [List.take_length] at htake
  refine ⟨f, k, _, own, n, honce, hk, hserved, hrest, hown, hrun, pc, _, b, _, hc, hphase, hb, hlen, ?_⟩
  exact stubReturn_answer hasks.whole.order (hserves.encodes k.world) htake

/-- Remote calls are local calls. Take a conversation in which the stub of a method calls over the
connection, caller and provider see to what they must, the call does not time out, and no other transport
of the caller dispatches a response with its number. Once everything that was sent has arrived, whatever
else was sent and however the streams were cut: the request was dispatched once, after the call; the handler
ran once, on the struct that the caller passed in; and the thread of the caller can go on, and its stub
returns what the handler would have returned on the spot. -/
theorem remoteCall_local {x : Option (Provider m ω₂)} {inp : Struct m.params}
    (conv : Conversation E₁ E₂ t₁ t₂ b₁ b₂ (setup ++ .left (.call (m.stubArgs tlv)) :: acts) p)
    (hbefore : Runs.run (Pair.step E₁ E₂ t₁ t₂) (Pair.initial h₁ h₂ b₁ b₂) setup = some p₀)
    (hserves : Serves t₁ t₂ b₁ b₂ acts x inp tlv p₀)
    (hpatient : .left (.expire p₀.left.calls.length) ∉ acts)
    (hpolls : ∀ t, .left (.onData t [] []) ∉ setup ++ .left (.call (m.stubArgs tlv)) :: acts)
    (hothers : ∀ t msg len r, t ≠ t₁ → .dispatched t msg len ∈ p.left.log →
      responseIn h₁ msg len = some r → r.seq ≠ p₀.left.nextSeq)
    (hfew : p.left.calls.length + 2 < 2 ^ 32) (hok : p.left.fault = false)
    (hquiet : p.toRight = [] ∧ p.toLeft = []) : ServedLocally E₁ E₂ t₂ acts x inp p₀ p := by
  obtain ⟨hwire, hsmall⟩ := stubEncode_carried (hserves.carried.imp FieldType.Carried.short)
    hserves.fits.1 hserves.encoded
  obtain ⟨p₁, seq, f, hasks⟩ := conv.asks_stub hbefore hserves.bound hserves.sendLeft hsmall hfew hok
  apply hasks.servedLocally hserves hwire hsmall hpatient hpolls _ hquiet
  rw [hasks.fresh]
  exact hothers

/-- A remote call is answered. Whatever two orderly nodes have done since the stub of a method called over
the connection, under the conditions of a remote call that is local: what is on its way can arrive, and
once it has, the call was served like a local one and its stub can return. -/
theorem remoteCall_answered {x : Option (Provider m ω₂)} {inp : Struct m.params}
    (ord : Orderly E₁ E₂ h₁ h₂ t₁ t₂ b₁ b₂ (setup ++ .left (.call (m.stubArgs tlv)) :: acts))
    (hrun : Runs.run (Pair.step E₁ E₂ t₁ t₂) (Pair.initial h₁ h₂ b₁ b₂)
      (setup ++ .left (.call (m.stubArgs tlv)) :: acts) = some p)
    (hbefore : Runs.run (Pair.step E₁ E₂ t₁ t₂) (Pair.initial h₁ h₂ b₁ b₂) setup = some p₀)
    (hserves : Serves t₁ t₂ b₁ b₂ acts x inp tlv p₀)
    (hpatient : .left (.expire p₀.left.calls.length) ∉ acts)
    (hothers : ∀ t msg len r, t ≠ t₁ → .dispatched t msg len ∈ p.left.log →
      responseIn h₁ msg len = some r → r.seq ≠ p₀.left.nextSeq)
    (hfew : p.left.calls.length + 2 < 2 ^ 32) :
    ∃ arr p', (∀ a ∈ arr, a.Arrives) ∧ Runs.run (Pair.step E₁ E₂ t₁ t₂) p arr = some p' ∧
      ServedLocally E₁ E₂ t₂ (acts ++ arr) x inp p₀ p' := by
  obtain ⟨arr, p', harr, hrest, hquiet⟩ := ord.empties hrun
  have ord' := ord.append_arrivals harr
  have hrun' := Runs.run_append.mpr ⟨_, hrun, hrest⟩
  have hlist : (setup ++ .left (.call (m.stubArgs tlv)) :: acts) ++ arr =
      setup ++ .left (.call (m.stubArgs tlv)) :: (acts ++ arr) := by
    rw [List.append_assoc]
    rfl
  rw [hlist] at ord' hrun'
  have hnot : ∀ a, .left a ∉ arr := fun a ha => harr _ ha
  -- the arrivals make no call and come in on the connection
  obtain ⟨as, bs, hbetween⟩ := Pair.run_between hrest
  have harrivals : ∀ a ∈ as, ∃ data polled, a = arrival t₁ data polled := by
    intro a ha
    rcases hbetween.leftActs a ha with ⟨hin, -⟩ | ⟨data, polled, -, heq⟩
    · exact absurd hin (hnot a)
    · exact ⟨data, polled, heq⟩
  obtain ⟨hlen, hlog⟩ := arrivals_keep harrivals hbetween.left
  have hserves' : Serves t₁ t₂ b₁ b₂ (acts ++ arr) x inp tlv p₀ := by
    refine { hserves with kept := ?_ }
    intro name e hmem
    rcases List.mem_append.mp hmem with hmem | hmem
    · exact hserves.kept name e hmem
    · exact absurd hmem fun hin => harr _ hin
  obtain ⟨hwire, hsmall⟩ := stubEncode_carried (hserves.carried.imp FieldType.Carried.short)
    hserves.fits.1 hserves.encoded
  obtain ⟨p₁, seq, f, hasks⟩ := (ord'.conversation hrun').asks_stub hbefore hserves.bound hserves.sendLeft
    hsmall (by rw [hlen]; exact hfew) (ord'.safe hrun').1.ok
  refine ⟨arr, p', harr, hrest, ?_⟩
  apply hasks.servedLocally hserves' hwire hsmall _ ord'.pollsLeft _ hquiet
  · intro hmem
    rcases List.mem_append.mp hmem with hmem | hmem
    · exact hpatient hmem
    · exact hnot _ hmem
  · rw [hasks.fresh]
    exact fun t msg len r ht hmem => hothers t msg len r ht (hlog t msg len ht hmem)

end Call

/-- A call of the small method from a 64-bit host on a 32-bit one. -/
def incSetup : List (PairAction Unit Unit) :=
  [.left (.bindTransport [0x65] 0), .right (.registerMethod [0x65] (incProvider.entry ⟨.little, .w32⟩))]

def incTlv : Bytes := [1, 4, 0, 7, 0, 0, 0]

def incArrivals : List (PairAction Unit Unit) :=
  [.arriveRight 5 true, .arriveRight 15 false, .arriveLeft 19 false]

def incActions : List (PairAction Unit Unit) :=
  incSetup ++ .left (.call (incMethod.stubArgs incTlv)) :: incArrivals

def incRun (acts : List (PairAction Unit Unit)) :
    Option (Pair ⟨.little, .w64⟩ ⟨.little, .w32⟩ Unit Unit) :=
  Runs.run (Pair.step Env.granting Env.granting 0 0) smallPair acts

theorem incRun_setup : (incRun incSetup).map (fun p =>
    (p.left.transportMap.get [0x65], p.left.calls.length)) = some (some 0, 0) := by
  decide +kernel

theorem incRun_method : (incRun incSetup).map (fun p => p.right.methods.get [0x65]) =
    some (some (incProvider.entry ⟨.little, .w32⟩)) := rfl

theorem incRun_messages : (incRun incActions).map (fun p =>
    (messagesSent 0 p.left.log, messagesSent 0 p.right.log)) =
      some ([[0, 0, 0, 0, 0, 1, 0, 0, 0, 8, 0, 1, 0x65, 1, 4, 0, 7, 0, 0, 0]],
        [[0, 0, 0, 0, 0, 1, 0, 0, 0, 7, 0, 0, 1, 4, 0, 8, 0, 0, 0]]) := by
  decide +kernel

theorem incRun_state : (incRun incActions).map (fun p =>
    ((p.left.fault, p.left.calls.length), (p.toRight, p.toLeft), p.left.log.filterMap Event.origin)) =
      some ((false, 1), ([], []), [0]) := by
  decide +kernel

theorem incActions_all {P : PairAction Unit Unit → Prop} (hbind : P (.left (.bindTransport [0x65] 0)))
    (hregister : P (.right (.registerMethod [0x65] (incProvider.entry ⟨.little, .w32⟩))))
    (hcall : P (.left (.call (incMethod.stubArgs incTlv)))) (hright : ∀ k polled, P (.arriveRight k polled))
    (hleft : ∀ k polled, P (.arriveLeft k polled)) : ∀ a ∈ incActions, P a := by
  intro a ha
  simp only [incActions, incSetup, incArrivals, List.cons_append, List.nil_append, List.mem_cons,
    List.not_mem_nil, or_false] at ha
  rcases ha with rfl | rfl | rfl | rfl | rfl | rfl
  · exact hbind
  · exact hregister
  · exact hcall
  · exact hright _ _
  · exact hright _ _
  · exact hleft _ _

theorem incRun_conversation {p : Pair ⟨.little, .w64⟩ ⟨.little, .w32⟩ Unit Unit}
    (hrun : incRun incActions = some p) :
    Conversation Env.granting Env.granting 0 0 smallBoot smallBoot incActions p := by
  have hmessages := incRun_messages
  rw [hrun, Option.map_some, Option.some.injEq, Prod.mk.injEq] at hmessages
  refine ⟨Env.granting_reliable, Env.granting_reliable, rfl, rfl, rfl, ?_, hrun, ?_, ?_⟩
  · exact incActions_all trivial trivial ⟨by decide, by decide⟩ (fun _ _ => trivial) fun _ _ => trivial
  · rw [hmessages.1]
    decide
  · rw [hmessages.2]
    decide

theorem incRun_serves {p₀ : Pair ⟨.little, .w64⟩ ⟨.little, .w32⟩ Unit Unit}
    (hrun : incRun incSetup = some p₀) {acts : List (PairAction Unit Unit)}
    (hkept : ∀ name e, .right (.registerMethod name e) ∉ acts) :
    Serves 0 0 smallBoot smallBoot acts (some incProvider) ((7 : UInt32), ()) incTlv p₀ := by
  have hmethod := incRun_method
  have hsetup := incRun_setup
  rw [hrun, Option.map_some, Option.some.injEq] at hmethod hsetup
  rw [Prod.mk.injEq] at hsetup
  exact ⟨carried_u32 _ _, incMethod_fits .w32, incProvider_encodes _, rfl, hsetup.1, hmethod,
    fun name e hmem => absurd hmem (hkept name e), rfl, rfl⟩

/-- The stub of `e` returns 8 for 7. -/
theorem remoteCall_local_inc : ∃ p p₀, incRun incActions = some p ∧ incRun incSetup = some p₀ ∧
    ServedLocally Env.granting Env.granting 0 incArrivals (some incProvider) ((7 : UInt32), ()) p₀ p := by
  obtain ⟨p, hrun, hstate⟩ := Option.map_eq_some_iff.mp incRun_state
  obtain ⟨p₀, hrun₀, -⟩ := Option.map_eq_some_iff.mp incRun_setup
  simp only [Prod.mk.injEq] at hstate
  obtain ⟨⟨hok, hlen⟩, hquiet, horigins⟩ := hstate
  refine ⟨p, p₀, hrun, hrun₀, ?_⟩
  apply remoteCall_local (incRun_conversation hrun) hrun₀ (incRun_serves hrun₀ (by simp [incArrivals]))
    (by simp [incArrivals]) _ _ (by rw [hlen]; decide) hok hquiet
  · intro t hmem
    apply incActions_all (P := fun a => a ≠ .left (.onData t [] [])) _ _ _ _ _ _ hmem rfl <;> simp
  · intro t msg len r hne hmem _
    have hin : t ∈ p.left.log.filterMap Event.origin := List.mem_filterMap.mpr ⟨_, hmem, rfl⟩
    rw [horigins, List.mem_singleton] at hin
    exact absurd hin hne

theorem incActions_orderly :
    Orderly Env.granting Env.granting ⟨.little, .w64⟩ ⟨.little, .w32⟩ 0 0 smallBoot smallBoot incActions := by
  have hnamed : (incMethod.stubArgs incTlv).Named := ⟨by decide, by decide⟩
  refine ⟨Env.granting_reliable, Env.granting_reliable, rfl, rfl, rfl, ?_, ?_, ?_, ?_, ?_,
    fun t => below_nil, fun t => below_nil⟩
  · exact incActions_all trivial trivial hnamed (fun _ _ => trivial) fun _ _ => trivial
  · intro a ha
    apply incActions_all (P := fun c => ∀ a, c = .left a → a.Tame .w64) _ _ _ _ _ _ ha a rfl
    · rintro a ⟨⟩
      trivial
    · simp
    · rintro a ⟨⟩
      change sizeofRpcHeader + strlen _ + List.length _ < 2 ^ 32
      decide
    · simp
    · simp
  · intro a ha
    apply incActions_all (P := fun c => ∀ a, c = .right a → a.Tame .w32) _ _ _ _ _ _ ha a rfl
    · simp
    · rintro a ⟨⟩
      exact Provider.entry_tame (incMethod_fits .w32) incProvider_encodes
    · simp
    · simp
    · simp
  · exact fun t => by simp [incActions, incSetup, incArrivals]
  · exact fun t => by simp [incActions, incSetup, incArrivals]

/-- The call is made and nothing has arrived yet. -/
def incAsking : List (PairAction Unit Unit) := incSetup ++ [.left (.call (incMethod.stubArgs incTlv))]

theorem incRun_asking : (incRun incAsking).map (fun p =>
    (p.left.calls.length, p.left.log.filterMap Event.origin)) = some (1, []) := by
  decide +kernel

/-- The request and its answer can still arrive, and the stub of `e` returns 8 for 7. -/
theorem remoteCall_answered_inc : ∃ p p₀ arr p', incRun incAsking = some p ∧ incRun incSetup = some p₀ ∧
    Runs.run (Pair.step Env.granting Env.granting 0 0) p arr = some p' ∧
      ServedLocally Env.granting Env.granting 0 arr (some incProvider) ((7 : UInt32), ()) p₀ p' := by
  obtain ⟨p, hrun, hstate⟩ := Option.map_eq_some_iff.mp incRun_asking
  obtain ⟨p₀, hrun₀, -⟩ := Option.map_eq_some_iff.mp incRun_setup
  rw [Prod.mk.injEq] at hstate
  have ord : Orderly Env.granting Env.granting ⟨.little, .w64⟩ ⟨.little, .w32⟩ 0 0 smallBoot smallBoot
      incAsking := @Orderly.before _ _ _ _ _ _ _ _ _ _ incAsking incArrivals (by
    rw [incAsking, List.append_assoc]
    exact incActions_orderly)
  obtain ⟨arr, p', -, hrest, hserved⟩ := remoteCall_answered ord hrun hrun₀
    (incRun_serves hrun₀ (by simp)) (by simp) (by
      intro t msg len r hne hmem _
      have hin : t ∈ p.left.log.filterMap Event.origin := List.mem_filterMap.mpr ⟨_, hmem, rfl⟩
      rw [hstate.2] at hin
      cases hin) (by rw [hstate.1]; decide)
  exact ⟨p, p₀, arr, p', hrun, hrun₀, hrest, hserved⟩

end CcRpc
