import CcRpc.Ledger

/-!
# What a call returns, the other node answered

A call over the connection that returns an answer returns the one that the other node computed for this
call's own request. The request was dispatched there once, after it was sent and no matter what else the
two nodes sent each other.
-/

namespace CcRpc

variable {h h₁ h₂ : Host} {ω ω₁ ω₂ : Type} {E E₁ E₂ : Env} {t₁ t₂ : Nat} {b₁ : Boot ω₁} {b₂ : Boot ω₂}

def PairAction.Named : PairAction ω₁ ω₂ → Prop
  | .left a => a.Named
  | .right a => a.Named
  | _ => True

/-- A run of two reliable nodes of one byte order that poll the connection, make calls with names and
send no message of 4 GiB. -/
structure Conversation (E₁ E₂ : Env) (t₁ t₂ : Nat) (b₁ : Boot ω₁) (b₂ : Boot ω₂)
    (acts : List (PairAction ω₁ ω₂)) (p : Pair h₁ h₂ ω₁ ω₂) : Prop where
  left : E₁.Reliable
  right : E₂.Reliable
  order : h₁.order = h₂.order
  recvLeft : b₁.hasRecv t₁ = true
  recvRight : b₂.hasRecv t₂ = true
  named : ∀ a ∈ acts, a.Named
  run : Runs.run (Pair.step E₁ E₂ t₁ t₂) (Pair.initial h₁ h₂ b₁ b₂) acts = some p
  sizeLeft : ∀ msg ∈ messagesSent t₁ p.left.log, msg.length < 2 ^ 32
  sizeRight : ∀ msg ∈ messagesSent t₂ p.right.log, msg.length < 2 ^ 32

theorem ActsOn.named {own : Action ω → Prop} (hown : ∀ a, own a → a.Named) {t : Nat} {a : Action ω}
    (ha : ActsOn t own a) : a.Named := by
  rcases ha with ⟨hin, -⟩ | ⟨data, polled, -, rfl⟩
  · exact hown a hin
  · cases polled <;> trivial

section Conversation

variable {acts acts' : List (PairAction ω₁ ω₂)} {p p' : Pair h₁ h₂ ω₁ ω₂}

theorem Conversation.before (conv : Conversation E₁ E₂ t₁ t₂ b₁ b₂ (acts ++ acts') p')
    (hrun : Runs.run (Pair.step E₁ E₂ t₁ t₂) (Pair.initial h₁ h₂ b₁ b₂) acts = some p) :
    Conversation E₁ E₂ t₁ t₂ b₁ b₂ acts p ∧ Runs.run (Pair.step E₁ E₂ t₁ t₂) p acts' = some p' := by
  obtain ⟨m, hm, hrest⟩ := Runs.run_append.mp conv.run
  rw [hrun] at hm
  cases hm
  refine ⟨?_, hrest⟩
  obtain ⟨as, bs, hbetween⟩ := Pair.run_between hrest
  obtain ⟨l₁, hl₁⟩ := Node.run_log hbetween.left
  obtain ⟨l₂, hl₂⟩ := Node.run_log hbetween.right
  refine ⟨conv.left, conv.right, conv.order, conv.recvLeft, conv.recvRight, ?_, hrun, ?_, ?_⟩
  · exact fun a ha => conv.named a (List.mem_append_left _ ha)
  · intro msg hmsg
    apply conv.sizeLeft
    rw [hl₁, messagesSent_append]
    exact List.mem_append_left _ hmsg
  · intro msg hmsg
    apply conv.sizeRight
    rw [hl₂, messagesSent_append]
    exact List.mem_append_left _ hmsg

variable (conv : Conversation E₁ E₂ t₁ t₂ b₁ b₂ acts p)

include conv

theorem Conversation.nodes :
    ∃ as bs, Runs.run (Node.step E₁) (b₁.node h₁) as = some p.left ∧ (∀ a ∈ as, a.Named) ∧
      Runs.run (Node.step E₂) (b₂.node h₂) bs = some p.right ∧ ∀ a ∈ bs, a.Named := by
  obtain ⟨as, bs, hbetween⟩ := Pair.run_between conv.run
  refine ⟨as, bs, hbetween.left, ?_, hbetween.right, ?_⟩
  · exact fun a ha => (hbetween.leftActs a ha).named fun b hb => conv.named (.left b) hb
  · exact fun a ha => (hbetween.rightActs a ha).named fun b hb => conv.named (.right b) hb

theorem Conversation.delivers :
    Delivered t₁ t₂ p.left p.right p.toRight ∧ Delivered t₂ t₁ p.right p.left p.toLeft := by
  obtain ⟨as, bs, hbetween⟩ := Pair.run_between conv.run
  exact Pair.Between.delivers conv.left conv.right conv.order conv.recvLeft conv.recvRight hbetween
    conv.sizeLeft conv.sizeRight

omit conv

theorem Delivered.taken_isPrefix {n₁ : Node h₁ ω₁} {n₂ : Node h₂ ω₂} {flight : Bytes}
    (hd : Delivered t₁ t₂ n₁ n₂ flight) : messagesTaken t₂ n₂.log <+: messagesSent t₁ n₁.log := by
  obtain ⟨ms, later, hsent, htaken, -, -⟩ := hd
  have hms : messagesTaken t₂ n₂.log = ms := by
    unfold messagesTaken
    rw [htaken, List.map_map]
    exact List.map_id ms
  rw [hms, hsent]
  exact List.prefix_append _ _

theorem Delivered.dispatched {n₁ : Node h₁ ω₁} {n₂ : Node h₂ ω₂} {flight : Bytes}
    (hd : Delivered t₁ t₂ n₁ n₂ flight) {msg : Bytes} {len : Nat}
    (hmem : .dispatched t₂ msg len ∈ n₂.log) : len = msg.length := by
  obtain ⟨ms, later, -, htaken, -, -⟩ := hd
  have hin : (msg, len) ∈ dispatchedOn t₂ n₂.log := List.mem_filterMap.mpr ⟨_, hmem, by simp⟩
  rw [htaken] at hin
  obtain ⟨f, -, hf⟩ := List.mem_map.mp hin
  cases hf
  rfl

theorem Delivered.all_taken {n₁ : Node h₁ ω₁} {n₂ : Node h₂ ω₂} (hd : Delivered t₁ t₂ n₁ n₂ []) :
    messagesTaken t₂ n₂.log = messagesSent t₁ n₁.log := by
  obtain ⟨ms, later, hsent, htaken, hflat, hnext⟩ := hd
  have hms : messagesTaken t₂ n₂.log = ms := by
    unfold messagesTaken
    rw [htaken, List.map_map]
    exact List.map_id ms
  rw [List.append_nil] at hflat
  cases later with
  | nil => rw [hms, hsent, List.append_nil]
  | cons f fs =>
    have hlt := hnext f rfl
    rw [hflat, List.flatten_cons, List.length_append] at hlt
    omega

include conv

/-- The responses of the node on the right are to requests of the node on the left. -/
theorem Conversation.responses :
    (responseSeqs h₂.order (messagesSent t₂ p.right.log)).Sublist
      (requestSeqs h₂.order (messagesTaken t₂ p.right.log)) := by
  obtain ⟨as, bs, -, -, hright, hnamed⟩ := conv.nodes
  obtain ⟨l, hl, hpieces⟩ := (Node.run_leads (C := Action.Named) hnamed hright).pieces
  have hlog : p.right.log = l := hl
  rw [hlog]
  exact hpieces.responses fun a ha => ha

theorem Conversation.asked {s : UInt32} (hs : s ∈ responseSeqs h₂.order (messagesTaken t₁ p.left.log)) :
    s ∈ requestSeqs h₂.order (messagesTaken t₂ p.right.log) ∧
      s ∈ requestSeqs h₂.order (messagesSent t₁ p.left.log) := by
  have hsent := (responseSeqs_isPrefix conv.delivers.2.taken_isPrefix).subset hs
  have htaken := conv.responses.subset hsent
  exact ⟨htaken, (requestSeqs_isPrefix conv.delivers.1.taken_isPrefix).subset htaken⟩

section Numbers

variable (hbound : p.left.calls.length + 2 < 2 ^ 32) (hok : p.left.fault = false)

include hbound hok

theorem Conversation.numbered : p.left.Numbered t₁ := by
  obtain ⟨as, bs, hleft, hnamed, -, -⟩ := conv.nodes
  exact Node.Numbered.run (initial_sound _ _ _ _ _ _) (b₁.numbered t₁) hnamed hleft hbound hok

theorem Conversation.requests_nodup :
    (requestSeqs h₂.order (messagesSent t₁ p.left.log)).Nodup := by
  rw [← conv.order]
  exact (conv.numbered hbound hok).fresh

theorem Conversation.taken_nodup :
    (requestSeqs h₂.order (messagesTaken t₂ p.right.log)).Nodup :=
  (conv.requests_nodup hbound hok).sublist (requestSeqs_isPrefix conv.delivers.1.taken_isPrefix).sublist

/-- No number is answered twice. -/
theorem Conversation.answers_nodup :
    (responseSeqs h₂.order (messagesTaken t₁ p.left.log)).Nodup :=
  ((conv.taken_nodup hbound hok).sublist conv.responses).sublist
    (responseSeqs_isPrefix conv.delivers.2.taken_isPrefix).sublist

end Numbers

end Conversation

theorem FirstSection.sent {a : CallArgs} {n n' : Node h ω} (hcall : FirstSection E a n n') {t : Nat}
    (hbound : n.transportMap.get a.name = some t) {pc : Call} (hc : n'.calls[n.calls.length]? = some pc)
    (hwent : ∀ st, pc.phase ≠ .failed st) :
    ∃ seq next f k, (n.transports t).hasSend = true ∧
      nextSeqLoop n.pending (2 ^ 32) n.nextSeq = some (seq, next) ∧
      requestMessage h seq a.name a.tlv = some f ∧ n'.log = n.log ++ [.sent t f (E.send k f)] ∧
        n'.calls = n.calls ++ [a.toCall seq .sent] := by
  have hnew : ∀ {q : Call}, n'.calls = n.calls ++ [q] → q = pc := by
    intro q hq
    rw [hq, List.getElem?_concat_length] at hc
    exact Option.some.inj hc
  have hstays : ∀ {s : UInt32} {st : Int}, n'.calls ≠ n.calls ++ [a.toCall s (.failed st)] := by
    intro s st hq
    apply hwent st
    rw [← hnew hq]
    rfl
  cases hcall with
  | unbound => exact absurd rfl hstays
  | refused mallocs waiters hseq => exact absurd rfl hstays
  | faults mallocs waiters hseq =>
    change n.calls[n.calls.length]? = some pc at hc
    rw [List.getElem?_eq_none (Nat.le_refl _)] at hc
    cases hc
  | unsent hbound' hseq hput hsend hret hserve =>
    exact absurd (congrArg (· ++ _) hserve.calls) hstays
  | @sends t' seq next mallocs waiters k pending n₁ r hbound' hseq hput hsend hret hserve =>
    rw [hbound, Option.some.injEq] at hbound'
    subst hbound'
    rcases rpcSendRequestTlv_log hsend with ⟨-, hfailed⟩ | ⟨f, hcan, hf, -, hlog⟩
    · rw [hfailed] at hret
      exact absurd hret (by decide)
    · exact ⟨seq, next, f, _, hcan, hseq, hf, hlog, congrArg (· ++ _) hserve.calls⟩

theorem Node.step_seq {n n' : Node h ω} {a : Action ω} (hstep : n.step E a = some n') {c : Nat}
    {pc : Call} (hc : n.calls[c]? = some pc) : ∃ pc', n'.calls[c]? = some pc' ∧ pc'.seq = pc.seq := by
  by_cases ha : ∀ t buf polled, a ≠ .onData t buf polled
  · obtain ⟨pc', hc', hfares⟩ := Node.step_call hstep ha hc
    refine ⟨pc', hc', ?_⟩
    cases hfares with
    | kept => rfl
    | thread hturn =>
      cases hturn with
      | wait hw => exact (Call.wait_moves hw).same.seq
      | wake hw => exact (Call.wake_moves hw).same.seq
      | expire hw => exact (Call.expire_moves hw).same.seq
    | finish hf => rcases Call.finish_spec hf with ⟨-, rfl⟩ | ⟨-, rfl⟩ <;> rfl
  · push Not at ha
    obtain ⟨t, buf, polled, rfl⟩ := ha
    cases Node.step_cases hstep with
    | thread _ hturn => cases hturn
    | onData hdata =>
      apply onData_keeps E (P := fun m : Node h ω => ∃ pc', m.calls[c]? = some pc' ∧ pc'.seq = pc.seq)
        _ _ _ _ ⟨pc, hc, rfl⟩ hdata
      · exact fun m b hm => hm
      · exact fun m k hm => hm
      · exact fun m r hm => hm
      · intro msg len m hm
        obtain ⟨pc', hc', hseq⟩ := hm
        have hcalls := (rpcDispatchMessage_spec E t msg len m).calls
        generalize (rpcDispatchMessage E t msg len m).calls = calls at hcalls
        cases hcalls with
        | same => exact ⟨pc', hc', hseq⟩
        | stored hr hmsg hget hd =>
          rw [getElem?_set_call hd]
          split
          · next hdc =>
            subst hdc
            rw [hd] at hc'
            cases hc'
            exact ⟨_, rfl, hseq⟩
          · exact ⟨pc', hc', hseq⟩

theorem Node.run_seq {n n' : Node h ω} {acts : List (Action ω)}
    (hrun : Runs.run (Node.step E) n acts = some n') {c : Nat} {pc : Call}
    (hc : n.calls[c]? = some pc) : ∃ pc', n'.calls[c]? = some pc' ∧ pc'.seq = pc.seq := by
  apply Runs.run_invariant (P := fun m : Node h ω => ∃ pc', m.calls[c]? = some pc' ∧ pc'.seq = pc.seq) _
    ⟨pc, hc, rfl⟩ hrun
  intro m a m' hm hstep
  obtain ⟨pc', hc', hseq⟩ := hm
  obtain ⟨pd, hd, hdseq⟩ := Node.step_seq hstep hc'
  exact ⟨pd, hd, hdseq.trans hseq⟩

theorem Node.Sound.run_returned {n n' : Node h ω} (hn : n.Sound) {acts : List (Action ω)}
    (hrun : Runs.run (Node.step E) n acts = some n') {c : Nat} {pc : Call}
    (hc : n.calls[c]? = some pc) (hout : ¬ pc.phase.InFlight) : n'.calls[c]? = some pc := by
  have hkept := Runs.run_invariant (P := fun m : Node h ω => m.Sound ∧ m.calls[c]? = some pc)
    (fun m a m' hm hstep => ⟨hm.1.step hstep, hm.1.step_returned hstep hm.2 hout⟩) ⟨hn, hc⟩ hrun
  exact hkept.2

/-- The call `a` is made at `p₀`, sends its request `f` under the number `seq`, and the conversation
goes on from `p₁` to `p`. -/
structure Asks (E₁ E₂ : Env) (t₁ t₂ : Nat) (b₁ : Boot ω₁) (b₂ : Boot ω₂)
    (setup : List (PairAction ω₁ ω₂)) (a : CallArgs) (acts : List (PairAction ω₁ ω₂))
    (p₀ p₁ p : Pair h₁ h₂ ω₁ ω₂) (seq : UInt32) (f : Bytes) : Prop where
  before : Conversation E₁ E₂ t₁ t₂ b₁ b₂ setup p₀
  whole : Conversation E₁ E₂ t₁ t₂ b₁ b₂ (setup ++ .left (.call a) :: acts) p
  step : p₀.left.step E₁ (.call a) = some p₁.left
  after : Runs.run (Pair.step E₁ E₂ t₁ t₂) p₁ acts = some p
  request : requestMessage h₁ seq a.name a.tlv = some f
  log : p₁.left.log = p₀.left.log ++ [.sent t₁ f f.length]
  calls : p₁.left.calls = p₀.left.calls ++ [a.toCall seq .sent]
  right : p₁.right = p₀.right
  fresh : seq = p₀.left.nextSeq
  few : p.left.calls.length + 2 < 2 ^ 32
  ok : p.left.fault = false

section Asks

variable {setup acts : List (PairAction ω₁ ω₂)} {a : CallArgs} {p₀ p₁ p : Pair h₁ h₂ ω₁ ω₂}
  {seq : UInt32} {f : Bytes}

theorem Pair.run_left (hrun : Runs.run (Pair.step E₁ E₂ t₁ t₂) p acts = some p₁)
    (hok : p₁.left.fault = false) : p.left.fault = false ∧ p.left.calls.length ≤ p₁.left.calls.length := by
  obtain ⟨as, bs, hbetween⟩ := Pair.run_between hrun
  refine ⟨?_, Node.run_length hbetween.left⟩
  have hleft := hbetween.left
  cases as with
  | nil =>
    rw [Runs.run_nil, Option.some.injEq] at hleft
    rw [hleft]
    exact hok
  | cons b bs =>
    obtain ⟨m, hstep, -⟩ := Runs.run_cons.mp hleft
    exact Node.step_fault hstep

/-- Every call that waits asked. -/
theorem Conversation.asks
    (conv : Conversation E₁ E₂ t₁ t₂ b₁ b₂ (setup ++ .left (.call a) :: acts) p)
    (hbefore : Runs.run (Pair.step E₁ E₂ t₁ t₂) (Pair.initial h₁ h₂ b₁ b₂) setup = some p₀)
    (hbound : p₀.left.transportMap.get a.name = some t₁)
    (hfew : p.left.calls.length + 2 < 2 ^ 32) (hok : p.left.fault = false)
    (hwent : ∀ n as, p₀.left.step E₁ (.call a) = some n → n.fault = false →
      Runs.run (Node.step E₁) n as = some p.left →
        ∃ pc, n.calls[p₀.left.calls.length]? = some pc ∧ ∀ st, pc.phase ≠ .failed st) :
    ∃ p₁ seq f, Asks E₁ E₂ t₁ t₂ b₁ b₂ setup a acts p₀ p₁ p seq f := by
  obtain ⟨hconv, hrun⟩ := conv.before hbefore
  obtain ⟨p₁, hp₁, hafter⟩ := Runs.run_cons.mp hrun
  obtain ⟨hok₀, hlen⟩ := Pair.run_left hrun hok
  obtain ⟨hok₁, -⟩ := Pair.run_left hafter hok
  rw [Pair.step, if_neg (by simp [Action.reads])] at hp₁
  obtain ⟨n, hn, rfl⟩ := Option.map_eq_some_iff.mp hp₁
  obtain ⟨as', bs', hbetween⟩ := Pair.run_between hafter
  have hnumbered := hconv.numbered (by omega) hok₀
  obtain ⟨as, bs, hleft, -, -, -⟩ := hconv.nodes
  have hsound : p₀.left.Sound := run_sound (initial_sound _ _ _ _ _ _) hleft
  cases Node.step_cases hn with
  | thread _ hturn => cases hturn
  | call hcall =>
    obtain ⟨pc, hc, hphase⟩ := hwent n as' hn hok₁ hbetween.left
    obtain ⟨seq, next, f, k, -, hloop, hf, hlog, hcalls⟩ := hcall.sent hbound hc hphase
    have hle := hnumbered.next
    obtain ⟨hfresh, -⟩ := nextSeqLoop_fresh hsound hnumbered (by omega) hloop
    refine ⟨_, seq, f, hconv, conv, hn, hafter, hf, ?_, hcalls, rfl, hfresh, hfew, hok⟩
    dsimp only
    rw [hlog, conv.left.takes]

variable (hasks : Asks E₁ E₂ t₁ t₂ b₁ b₂ setup a acts p₀ p₁ p seq f)

include hasks

theorem Asks.header : hasMethod h₂.order f = true ∧ messageSeq h₂.order f = seq := by
  have hnamed : a.Named := hasks.whole.named (.left (.call a)) (by simp)
  rw [← hasks.whole.order]
  exact request_header hnamed hasks.request

theorem Asks.before_left : p₀.left.calls.length + 2 < 2 ^ 32 ∧ p₀.left.fault = false := by
  have hlen : p₁.left.calls.length = p₀.left.calls.length + 1 := by
    rw [hasks.calls, List.length_append, List.length_singleton]
  have hrest := hasks.few
  obtain ⟨-, hrun⟩ := hasks.whole.before hasks.before.run
  obtain ⟨hok, hle⟩ := Pair.run_left hrun hasks.ok
  exact ⟨by omega, hok⟩

theorem Asks.named (b : Action ω₂) (hb : ActsOn t₂ (.right · ∈ acts) b) : b.Named :=
  hb.named fun c hc => hasks.whole.named (.right c) (by simp [hc])

theorem Asks.new : seq ∉ requestSeqs h₂.order (messagesSent t₁ p₀.left.log) := by
  obtain ⟨hfew, hok⟩ := hasks.before_left
  have hnumbered := hasks.before.numbered hfew hok
  intro hmem
  rw [← hasks.whole.order] at hmem
  have hlt := hnumbered.below seq hmem
  rw [hasks.fresh] at hlt
  exact absurd hlt (Nat.lt_irrefl _)

theorem Asks.mem : f ∈ messagesSent t₁ p.left.log := by
  obtain ⟨as, bs, hbetween⟩ := Pair.run_between hasks.after
  obtain ⟨l, hl⟩ := Node.run_log hbetween.left
  rw [hl, hasks.log, messagesSent_append, messagesSent_append, messagesSent_singleton, if_pos rfl]
  simp

theorem Asks.eq_request {f' : Bytes} (hmem : f' ∈ messagesSent t₁ p.left.log)
    (hkind : hasMethod h₂.order f' = true) (hseq : messageSeq h₂.order f' = seq) : f' = f := by
  obtain ⟨hf, hfseq⟩ := hasks.header
  exact eq_of_nodup_seqs (hasks.whole.requests_nodup hasks.few hasks.ok) hmem hasks.mem hkind hf
    (hseq.trans hfseq.symm)

/-- What the node on the right did with the request: it dispatched it once, after it was asked, and
only then sent a response under its number. -/
theorem Asks.dispatching (htaken : f ∈ messagesTaken t₂ p.right.log) :
    (messagesTaken t₂ p.right.log).count f = 1 ∧
    ∃ k l, p₀.right.Leads E₂ (ActsOn t₂ (.right · ∈ acts)) k ∧
      (rpcDispatchMessage E₂ t₂ f f.length k).log = k.log ++ .dispatched t₂ f f.length :: l ∧
      (rpcDispatchMessage E₂ t₂ f f.length k).Leads E₂ (ActsOn t₂ (.right · ∈ acts)) p.right ∧
      ∀ g ∈ messagesSent t₂ p.right.log, hasMethod h₂.order g = false → messageSeq h₂.order g = seq →
        g ∈ messagesSent t₂ l := by
  obtain ⟨hkind, hseq⟩ := hasks.header
  obtain ⟨as, bs, hbetween⟩ := Pair.run_between hasks.after
  have hleads : p₀.right.Leads E₂ (ActsOn t₂ (.right · ∈ acts)) p.right := by
    rw [← hasks.right]
    exact Node.run_leads hbetween.rightActs hbetween.right
  have hnodup := hasks.whole.taken_nodup hasks.few hasks.ok
  -- the request is dispatched in the new part of the log
  have hnot : f ∉ messagesTaken t₂ p₀.right.log := by
    intro hmem
    have hin := (requestSeqs_isPrefix (o := h₂.order) hasks.before.delivers.1.taken_isPrefix).subset
      (mem_requestSeqs hmem hkind)
    rw [hseq] at hin
    exact hasks.new hin
  obtain ⟨l₀, hl₀⟩ := hleads.log
  have hnew : f ∈ messagesTaken t₂ l₀ := by
    rw [hl₀, messagesTaken_append] at htaken
    rcases List.mem_append.mp htaken with hold | hnew
    · exact absurd hold hnot
    · exact hnew
  obtain ⟨len, hdispatched⟩ := mem_messagesTaken.mp hnew
  have hlen : len = f.length :=
    hasks.whole.delivers.1.dispatched (by rw [hl₀]; exact List.mem_append_right _ hdispatched)
  subst hlen
  obtain ⟨x, y, rfl⟩ := List.append_of_mem hdispatched
  obtain ⟨k, hk, hklog, hrest⟩ := hleads.dispatching hl₀
  obtain ⟨l, hl, hanswered⟩ := rpcDispatchMessage_answered (E := E₂) t₂ f f.length k
  obtain ⟨z, hz, hpieces⟩ := hrest.pieces
  have hright : p.right.log = k.log ++ (.dispatched t₂ f f.length :: l) ++ z := by rw [hz, hl]
  have htakenl : messagesTaken t₂ (.dispatched t₂ f f.length :: l) = f :: messagesTaken t₂ l := by
    unfold messagesTaken
    rw [dispatchedOn_cons]
    rfl
  have hsplit : requestSeqs h₂.order (messagesTaken t₂ p.right.log) =
      requestSeqs h₂.order (messagesTaken t₂ k.log) ++ seq ::
        (requestSeqs h₂.order (messagesTaken t₂ l) ++ requestSeqs h₂.order (messagesTaken t₂ z)) := by
    rw [hright, messagesTaken_append, messagesTaken_append, htakenl]
    simp [requestSeqs, hkind, hseq]
  rw [hsplit] at hnodup
  -- so no other message that was dispatched has its number
  have hother := (List.nodup_cons.mp (List.nodup_middle.mp hnodup)).1
  have honce : ∀ {ms : List Bytes}, seq ∉ requestSeqs h₂.order ms → ms.count f = 0 := by
    intro ms hms
    apply List.count_eq_zero_of_not_mem
    intro hmem
    have hin := mem_requestSeqs hmem hkind
    rw [hseq] at hin
    exact hms hin
  simp only [List.mem_append, not_or] at hother
  constructor
  · rw [hright, messagesTaken_append, messagesTaken_append, htakenl, List.count_append, List.count_append,
      List.count_cons_self, honce hother.1, honce hother.2.1, honce hother.2.2]
  · refine ⟨k, l, hk, hl, hrest, ?_⟩
    intro g hg hgkind hgseq
    have hbefore : seq ∉ responseSeqs h₂.order (messagesSent t₂ k.log) := by
      obtain ⟨-, bs₀, -, -, hright₀, hnamed₀⟩ := hasks.before.nodes
      have hstart : (b₂.node h₂).Leads E₂ Action.Named k :=
        (Node.run_leads hnamed₀ hright₀).trans (hk.mono hasks.named)
      obtain ⟨w, hw, hpieces₀⟩ := hstart.pieces
      have hlog : k.log = w := hw
      rw [hlog] at hother ⊢
      exact fun hin => hother.1 ((hpieces₀.responses fun _ ha => ha).subset hin)
    have hafter : seq ∉ responseSeqs h₂.order (messagesSent t₂ z) :=
      fun hin => hother.2.2 ((hpieces.responses fun _ ha => hasks.named _ ha).subset hin)
    rw [hright, messagesSent_append, messagesSent_append] at hg
    have hin : ∀ {ms : List Bytes}, g ∈ ms → seq ∈ responseSeqs h₂.order ms := by
      intro ms hms
      have hmem := mem_responseSeqs hms hgkind
      rwa [hgseq] at hmem
    rcases List.mem_append.mp hg with hg | hg
    · rcases List.mem_append.mp hg with hg | hg
      · exact absurd (hin hg) hbefore
      · exact hg
    · exact absurd (hin hg) hafter

theorem Asks.answered {g : Bytes} (hg : g ∈ messagesTaken t₁ p.left.log)
    (hkind : hasMethod h₂.order g = false) (hseq : messageSeq h₂.order g = seq) :
    f ∈ messagesTaken t₂ p.right.log ∧ g ∈ messagesSent t₂ p.right.log := by
  have hin := mem_responseSeqs hg hkind
  rw [hseq] at hin
  obtain ⟨hasked, -⟩ := hasks.whole.asked hin
  obtain ⟨f', hf', hf'seq⟩ := List.mem_map.mp hasked
  obtain ⟨hmem, hkind'⟩ := List.mem_filter.mp hf'
  have hsame := hasks.eq_request (hasks.whole.delivers.1.taken_isPrefix.subset hmem) hkind' hf'seq
  rw [hsame] at hmem
  exact ⟨hmem, hasks.whole.delivers.2.taken_isPrefix.subset hg⟩

theorem Asks.seq_eq {pc : Call} (hc : p.left.calls[p₀.left.calls.length]? = some pc) : pc.seq = seq := by
  obtain ⟨as, bs, hbetween⟩ := Pair.run_between hasks.after
  have hnew : p₁.left.calls[p₀.left.calls.length]? = some (a.toCall seq .sent) := by
    rw [hasks.calls, List.getElem?_concat_length]
  obtain ⟨pc', hc', hsame⟩ := Node.run_seq hbetween.left hnew
  rw [hc] at hc'
  cases hc'
  exact hsame

end Asks

/-- Agreement. In every conversation in which nothing undefined happened to the caller and no other
transport of it dispatched a response with the number of the call, whatever the two nodes send each other
and however the streams are cut: a call over the connection that returned an answer returned what the node
on the right sent while it dispatched this call's request. It dispatched the request once, after the call
was made. -/
theorem returned_from_peer {setup acts : List (PairAction ω₁ ω₂)} {a : CallArgs}
    {p₀ p : Pair h₁ h₂ ω₁ ω₂}
    (conv : Conversation E₁ E₂ t₁ t₂ b₁ b₂ (setup ++ .left (.call a) :: acts) p)
    (hbefore : Runs.run (Pair.step E₁ E₂ t₁ t₂) (Pair.initial h₁ h₂ b₁ b₂) setup = some p₀)
    (hbound : p₀.left.transportMap.get a.name = some t₁)
    (hfew : p.left.calls.length + 2 < 2 ^ 32) (hok : p.left.fault = false) {pc : Call} {st : Int}
    (hc : p.left.calls[p₀.left.calls.length]? = some pc) (hret : pc.phase = .returned 0 st)
    (hothers : ∀ t msg len r, t ≠ t₁ → .dispatched t msg len ∈ p.left.log →
      responseIn h₁ msg len = some r → r.seq ≠ pc.seq) :
    ∃ f k l g r, requestMessage h₁ pc.seq a.name a.tlv = some f ∧
      (messagesTaken t₂ p.right.log).count f = 1 ∧
      p₀.right.Leads E₂ (ActsOn t₂ (.right · ∈ acts)) k ∧
      (rpcDispatchMessage E₂ t₂ f f.length k).log = k.log ++ .dispatched t₂ f f.length :: l ∧
      (rpcDispatchMessage E₂ t₂ f f.length k).Leads E₂ (ActsOn t₂ (.right · ∈ acts)) p.right ∧
      g ∈ messagesSent t₂ l ∧ responseIn h₁ g g.length = some r ∧ r.seq = pc.seq ∧
      st = r.status.toNat ∧ ∀ b n, pc.buf = some b → pc.outLen = some n →
        n = min r.msgLen pc.bufSize ∧ b.take n = r.payload.take n := by
  obtain ⟨as, bs, hleft, -, -, -⟩ := conv.nodes
  have hsound : p.left.Sound := run_sound (initial_sound _ _ _ _ _ _) hleft
  have hwent : ∀ n as, p₀.left.step E₁ (.call a) = some n → n.fault = false →
      Runs.run (Node.step E₁) n as = some p.left →
        ∃ pc, n.calls[p₀.left.calls.length]? = some pc ∧ ∀ st, pc.phase ≠ .failed st := by
    intro n as hn hfault hrun
    obtain ⟨as₀, bs₀, hleft₀, -, -, -⟩ := (conv.before hbefore).1.nodes
    have hsound₀ : p₀.left.Sound := run_sound (initial_sound _ _ _ _ _ _) hleft₀
    have hnew : ∀ {q : Call}, n.calls = p₀.left.calls ++ [q] →
        n.calls[p₀.left.calls.length]? = some q := by
      intro q hq
      rw [hq, List.getElem?_concat_length]
    cases Node.step_cases hn with
    | thread _ hturn => cases hturn
    | call hcall =>
      cases hcall.issues with
      | fault hbad _ _ =>
        rw [hfault] at hbad
        cases hbad
      | fails hcalls _ =>
        -- a call that failed stays so
        have hsame := (hsound₀.step hn).run_returned hrun (hnew hcalls) id
        rw [hc, Option.some.injEq] at hsame
        rw [hsame] at hret
        cases hret
      | sends _ hcalls _ => exact ⟨_, hnew hcalls, fun st heq => by cases heq⟩
  obtain ⟨p₁, seq, f, hasks⟩ := conv.asks hbefore hbound hfew hok hwent
  have hseq := hasks.seq_eq hc
  obtain ⟨hdone, hst, hlen⟩ := (hsound.calls _ pc hc).returned st hret
  obtain ⟨t, g, len, r, hmem, hr, hans⟩ := (hsound.calls _ pc hc).answered hdone
  have ht : t = t₁ := by
    by_contra hne
    exact hothers t g len r hne hmem hr hans.seq
  subst ht
  have hglen := conv.delivers.2.dispatched hmem
  subst hglen
  obtain ⟨hkind, hgseq⟩ := responseIn_header hr
  rw [conv.order] at hkind hgseq
  have hnumber : messageSeq h₂.order g = seq := by rw [← hgseq, hans.seq, hseq]
  obtain ⟨htaken, hsent⟩ := hasks.answered (mem_messagesTaken.mpr ⟨_, hmem⟩) hkind hnumber
  obtain ⟨honce, k, l, hk, hl, hrest, honly⟩ := hasks.dispatching htaken
  refine ⟨f, k, l, g, r, ?_, honce, hk, hl, hrest, honly g hsent hkind hnumber, hr, hans.seq, ?_, ?_⟩
  · rw [hseq]
    exact hasks.request
  · rw [hst, hans.status]
  · intro b n hb hn
    have hn' := hlen (by rw [hb]; rfl) n hn
    rw [hn', ← hans.respLen]
    exact ⟨rfl, hans.buf b hb⟩

def notFoundArgs : CallArgs := ⟨[0x65], [], none, none, room_none⟩

theorem notFoundArgs_named : notFoundArgs.Named := ⟨by decide, by decide⟩

theorem notFoundRun_conversation {p : Pair ⟨.little, .w64⟩ ⟨.little, .w32⟩ Unit Unit}
    (hrun : notFoundRun notFoundCall = some p) :
    Conversation Env.granting Env.granting 0 0 smallBoot smallBoot
      (.left (.bindTransport [0x65] 0) :: notFoundCall) p := by
  have hmessages := notFoundRun_messages
  rw [hrun, Option.map_some, Option.some.injEq, Prod.mk.injEq] at hmessages
  refine ⟨Env.granting_reliable, Env.granting_reliable, rfl, rfl, rfl, ?_, hrun, ?_, ?_⟩
  · intro a ha
    simp only [notFoundCall, List.mem_cons, List.not_mem_nil, or_false] at ha
    rcases ha with rfl | rfl | rfl | rfl | rfl | rfl | rfl
    · trivial
    · exact notFoundArgs_named
    all_goals trivial
  · rw [hmessages.1]
    decide
  · rw [hmessages.2]
    decide

/-- The transport that a message came in on. -/
def Event.origin : Event → Option Nat
  | .dispatched t _ _ => some t
  | _ => none

theorem notFoundRun_call : (notFoundRun notFoundCall).map (fun p =>
    ((p.left.fault, p.left.calls.length), p.left.calls.map fun pc => (pc.seq, pc.phase),
      p.left.log.filterMap Event.origin)) = some ((false, 1), [(1, .returned 0 1)], [0]) := by
  decide +kernel

theorem notFoundRun_bound : (notFoundRun []).map (fun p =>
    (p.left.transportMap.get [0x65], p.left.calls.length)) = some (some 0, 0) := by
  decide +kernel

/-- The call of `e` returned what the other node sent for it. -/
theorem returned_from_peer_small : ∃ p pc f g r, notFoundRun notFoundCall = some p ∧
    p.left.calls[0]? = some pc ∧ requestMessage ⟨.little, .w64⟩ pc.seq [0x65] [] = some f ∧
      (messagesTaken 0 p.right.log).count f = 1 ∧ responseIn ⟨.little, .w64⟩ g g.length = some r ∧
        r.seq = pc.seq ∧ (1 : Int) = r.status.toNat := by
  obtain ⟨p, hrun, hcall⟩ := Option.map_eq_some_iff.mp notFoundRun_call
  obtain ⟨p₀, hrun₀, hbound⟩ := Option.map_eq_some_iff.mp notFoundRun_bound
  simp only [Prod.mk.injEq] at hcall hbound
  obtain ⟨⟨hok, hlen⟩, hcalls, horigins⟩ := hcall
  have hstart : p₀.left.calls.length = 0 := hbound.2
  obtain ⟨pc, hpcs⟩ := List.length_eq_one_iff.mp hlen
  rw [hpcs] at hcalls
  simp only [List.map_cons, List.map_nil, List.cons.injEq, Prod.mk.injEq, and_true] at hcalls
  have hc : p.left.calls[p₀.left.calls.length]? = some pc := by
    rw [hstart, hpcs]
    rfl
  have hreturned := @returned_from_peer ⟨.little, .w64⟩ ⟨.little, .w32⟩ _ _ _ _ 0 0 smallBoot smallBoot
    [.left (.bindTransport [0x65] 0)] notFoundCall.tail notFoundArgs p₀ p
    (notFoundRun_conversation hrun) hrun₀ hbound.1 (by rw [hlen]; decide) hok pc 1 hc hcalls.2 (by
      intro t msg len r hne hmem _
      have hin : t ∈ p.left.log.filterMap Event.origin := List.mem_filterMap.mpr ⟨_, hmem, rfl⟩
      rw [horigins, List.mem_singleton] at hin
      exact absurd hin hne)
  obtain ⟨f, k, l, g, r, hf, honce, -, -, -, -, hr, hseq, hstatus, -⟩ := hreturned
  rw [hstart] at hc
  exact ⟨p, pc, f, g, r, hrun, hc, hf, honce, hr, hseq, hstatus⟩

end CcRpc
