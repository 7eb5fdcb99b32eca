import CcRpc.Matching

/-!
# Timeouts and stored responses

`rpc_handle_response` marks the call it stores a response in as done, but `rpc_call_with_tlv` never
reads the mark: it reports a timeout whenever its wait did. A response that comes between the
timeout and the second locked section is stored and then thrown away, and so is one that the waiter
is signalled for too late. In runs without these two events no stored response is lost.
-/

namespace CcRpc

variable {h : Host} {ω : Type} {E : Env}

/-- A call that has returned with a response stored for it was woken, and returned the status of
that response. -/
def AcceptedReturned (n : Node h ω) : Prop :=
  ∀ (c : Nat) (pc : Call) (waitRet status : Int), n.calls[c]? = some pc →
    pc.phase = .returned waitRet status → pc.done = true →
      waitRet = 0 ∧ ∃ t msg len r, .dispatched t msg len ∈ n.log ∧
        responseIn h msg len = some r ∧ pc.AnsweredBy r ∧ status = r.status.toNat

/-- The step is neither the timeout of a call that has a response, nor the arrival of a response
for a call that has timed out. -/
def KeepsAnswers (n : Node h ω) : Action ω → Prop
  | .expire c => ∀ pc, n.calls[c]? = some pc → pc.done = false
  | .onData t buf polled =>
    let queue := (n.transports t).reasm.bytes ++ received buf polled
    (wireFraming h.order).Below (2 ^ h.word.bits) queue ∧
      ∀ f ∈ (wireFraming h.order).frames queue, ∀ r, responseIn h f f.length = some r →
        ∀ c pc, n.pending.get r.seq = some c → n.calls[c]? = some pc → pc.phase ≠ .expired
  | _ => True

/-- What the dispatch of every frame in the queue keeps, `rpc_on_data` keeps. -/
theorem onData_frames_keeps {Q : Node h ω → Prop} {t : Nat} {buf polled : Bytes} {n n' : Node h ω}
    (hlocked : ∀ m b, Q m → Q { m with locked := b }) (hmallocs : ∀ m k, Q m → Q { m with mallocs := k })
    (hreasm : ∀ m r, Q m → Q (m.setReasm t r))
    (hbelow : (wireFraming h.order).Below (2 ^ h.word.bits)
      ((n.transports t).reasm.bytes ++ received buf polled))
    (hdispatch : ∀ f ∈ (wireFraming h.order).frames
        ((n.transports t).reasm.bytes ++ received buf polled),
      ∀ m, Q m → Q (rpcDispatchMessage E t f f.length m))
    (hn : Q n) (hstep : n.onData E t buf polled = some n') : Q n' := by
  unfold Node.onData at hstep
  dsimp only at hstep
  split at hstep
  · cases hstep
  · obtain ⟨⟨r, m⟩, hdata, rfl⟩ := Option.map_eq_some_iff.mp hstep
    refine hreasm m r ?_
    cases hrecv : (n.transports t).hasRecv with
    | false =>
      rw [hrecv] at hdata
      cases hdata
      exact hn
    | true =>
      rw [hrecv, rpcOnData_received h rfl] at hdata
      split at hdata
      · cases hdata
        exact hlocked n true hn
      · next hne =>
        have hdata' : received buf polled ≠ [] := fun hnil => hne (by rw [hnil]; rfl)
        have hpick : ∀ b : Bool, (wireFraming h.order).Below (2 ^ h.word.bits)
              (if b then (n.transports t).reasm.bytes ++ received buf polled
                else (n.transports t).reasm.bytes) ∧
            ∀ f ∈ (wireFraming h.order).frames
                (if b then (n.transports t).reasm.bytes ++ received buf polled
                  else (n.transports t).reasm.bytes),
              f ∈ (wireFraming h.order).frames
                ((n.transports t).reasm.bytes ++ received buf polled) := by
          intro b
          cases b with
          | true => exact ⟨hbelow, fun f hf => hf⟩
          | false =>
            refine ⟨hbelow.of_append, fun f hf => ?_⟩
            rw [Framing.frames_append_bytes]
            exact List.mem_append_left _ hf
        obtain ⟨hbelow', hsub⟩ := hpick (chunkNode h (Node.ports E t true polled)
          (received buf polled) n).1
        obtain ⟨r', heq, -⟩ := rpcOnData_eq h (P := Node.ports E t true polled) rfl hdata'
          (n.transports t).reasm n rfl hbelow'
        rw [heq] at hdata
        cases hdata
        refine hlocked _ false (deliver_keeps (fun _ m hm => hmallocs m _ hm) ?_ ?_)
        · intro f hf m hm
          exact hdispatch f (hsub f hf) m hm
        · exact hmallocs _ _ (hlocked n true hn)

/-- A call that has timed out has no response. -/
structure Node.NoLost (n : Node h ω) : Prop where
  sound : n.Sound
  expired : ∀ (c : Nat) (pc : Call), n.calls[c]? = some pc → pc.phase = .expired → pc.done = false
  returned : ∀ (c : Nat) (pc : Call) (waitRet status : Int), n.calls[c]? = some pc →
    pc.phase = .returned waitRet status → waitRet ≠ 0 → pc.done = false

theorem Node.NoLost.acceptedReturned {n : Node h ω} (hn : n.NoLost) : AcceptedReturned n := by
  intro c pc waitRet status hc hret hdone
  have hwait : waitRet = 0 := by
    by_contra hne
    rw [hn.returned c pc waitRet status hc hret hne] at hdone
    cases hdone
  subst hwait
  have hpc := hn.sound.calls c pc hc
  obtain ⟨t, msg, len, r, hmem, hr, hans⟩ := hpc.answered hdone
  obtain ⟨-, hst, -⟩ := hpc.returned status hret
  exact ⟨rfl, t, msg, len, r, hmem, hr, hans, by rw [hst, hans.status]⟩

theorem Node.NoLost.of_calls {n n' : Node h ω} (hn : n.NoLost) (hsound : n'.Sound)
    (hc : n'.calls = n.calls) : n'.NoLost := by
  refine ⟨hsound, ?_, ?_⟩
  · rw [hc]
    exact hn.expired
  · rw [hc]
    exact hn.returned

theorem Node.NoLost.of_set {n n' : Node h ω} (hn : n.NoLost) (hsound : n'.Sound) {c : Nat}
    {pc pc' : Call} (hc : n.calls[c]? = some pc) (hcs : n'.calls = n.calls.set c pc')
    (hexpired : pc'.phase = .expired → pc'.done = false)
    (hreturned : ∀ waitRet status, pc'.phase = .returned waitRet status → waitRet ≠ 0 →
      pc'.done = false) : n'.NoLost := by
  refine ⟨hsound, ?_, ?_⟩
  · intro j q hq
    rw [hcs, getElem?_set_call hc] at hq
    split at hq
    · cases hq
      exact hexpired
    · exact hn.expired j q hq
  · intro j q waitRet status hq
    rw [hcs, getElem?_set_call hc] at hq
    split at hq
    · cases hq
      exact hreturned waitRet status
    · exact hn.returned j q waitRet status hq

theorem Node.NoLost.of_append {n n' : Node h ω} (hn : n.NoLost) (hsound : n'.Sound) {pc : Call}
    (hcs : n'.calls = n.calls ++ [pc]) (hdone : pc.done = false) : n'.NoLost := by
  have hmem : ∀ (j : Nat) (q : Call), n'.calls[j]? = some q → n.calls[j]? = some q ∨ q = pc := by
    intro j q hq
    rw [hcs, List.getElem?_append] at hq
    split at hq
    · exact Or.inl hq
    · exact Or.inr (List.mem_singleton.mp (List.mem_of_getElem? hq))
  refine ⟨hsound, ?_, ?_⟩
  · intro j q hq hexp
    rcases hmem j q hq with hold | rfl
    · exact hn.expired j q hold hexp
    · exact hdone
  · intro j q waitRet status hq hret hne
    rcases hmem j q hq with hold | rfl
    · exact hn.returned j q waitRet status hold hret hne
    · exact hdone

/-- The phases are those of `n₀`, and so are the pending calls. -/
structure SamePhases (n₀ n : Node h ω) : Prop where
  pending : n.pending = n₀.pending
  phases : ∀ (c : Nat) (pc : Call), n.calls[c]? = some pc →
    ∃ pc₀, n₀.calls[c]? = some pc₀ ∧ pc.phase = pc₀.phase

theorem Node.NoLost.dispatch {t : Nat} {msg : Bytes} {len : Nat} {n₀ n n' : Node h ω}
    (hn : n.NoLost) (hph : SamePhases n₀ n) (hd : Dispatches t msg len n n')
    (hlate : ∀ r, responseIn h msg len = some r → ∀ c pc, n₀.pending.get r.seq = some c →
      n₀.calls[c]? = some pc → pc.phase ≠ .expired) : n'.NoLost ∧ SamePhases n₀ n' := by
  have hsound := hn.sound.dispatch hd
  have hcalls := hd.calls
  generalize hcs : n'.calls = calls at hcalls
  cases hcalls with
  | same =>
    refine ⟨hn.of_calls hsound hcs, ⟨hd.tables.pending.trans hph.pending, ?_⟩⟩
    rw [hcs]
    exact hph.phases
  | stored hr hmsg hget hc =>
    next r c pc =>
    obtain ⟨pc₀, hc₀, hphase⟩ := hph.phases c pc hc
    have hnot : pc.phase ≠ .expired := by
      rw [hphase]
      rw [hph.pending] at hget
      exact hlate r hmsg c pc₀ hget hc₀
    obtain ⟨pc', hc', hin, -⟩ := (hn.sound.pending _ _).mp hget
    rw [hc] at hc'
    cases hc'
    refine ⟨hn.of_set hsound hc hcs (fun hexp => absurd hexp hnot) fun waitRet status hret => ?_,
      ⟨hd.tables.pending.trans hph.pending, ?_⟩⟩
    · have hret' : pc.phase = .returned waitRet status := hret
      rw [hret'] at hin
      exact hin.elim
    · intro j q hq
      rw [hcs, getElem?_set_call hc] at hq
      split at hq
      · next hcj =>
        cases hq
        subst hcj
        exact ⟨pc₀, hc₀, hphase⟩
      · exact hph.phases j q hq

theorem Call.wait_phase {pc pc' : Call} (hw : pc.wait = some pc') :
    pc'.phase = .woken ∨ pc'.phase = .blocked := by
  unfold wait at hw
  split at hw
  · rw [Option.some.injEq] at hw
    subst hw
    split
    · exact Or.inl rfl
    · exact Or.inr rfl
  · cases hw

theorem Call.wake_phase {pc pc' : Call} (hw : pc.wake = some pc') : pc'.phase = .woken := by
  unfold wake at hw
  split at hw <;> cases hw
  rfl

theorem Node.NoLost.step {n n' : Node h ω} {a : Action ω} (hn : n.NoLost) (hkeep : KeepsAnswers n a)
    (hstep : n.step E a = some n') : n'.NoLost := by
  have hsound := hn.sound.step hstep
  unfold Node.step at hstep
  split at hstep
  · cases hstep
  · cases a with
    | registerMethod name m => exact hn.of_calls hsound (rpcRegisterMethod_calls hstep).2.1
    | bindTransport name t => exact hn.of_calls hsound (rpcBindTransport_calls hstep).2.1
    | call a =>
      obtain ⟨hissue, -⟩ := rpcCallWithTlv_spec hstep
      cases hissue with
      | fault hfault hc hp => exact hn.of_calls hsound hc
      | fails hc hp => exact hn.of_append hsound hc rfl
      | sends hfree hc hp => exact hn.of_append hsound hc rfl
    | wait c =>
      obtain ⟨pc, hc, hpc⟩ := Option.bind_eq_some_iff.mp hstep
      obtain ⟨pc', hwait, rfl⟩ := Option.map_eq_some_iff.mp hpc
      have hphase := Call.wait_phase hwait
      refine hn.of_set hsound hc rfl (fun hexp => ?_) fun waitRet status hret => ?_
      · rcases hphase with hp | hp <;> rw [hp] at hexp <;> cases hexp
      · rcases hphase with hp | hp <;> rw [hp] at hret <;> cases hret
    | wake c =>
      obtain ⟨pc, hc, hpc⟩ := Option.bind_eq_some_iff.mp hstep
      obtain ⟨pc', hwake, rfl⟩ := Option.map_eq_some_iff.mp hpc
      have hphase := Call.wake_phase hwake
      refine hn.of_set hsound hc rfl (fun hexp => ?_) fun waitRet status hret => ?_
      · rw [hphase] at hexp
        cases hexp
      · rw [hphase] at hret
        cases hret
    | expire c =>
      obtain ⟨pc, hc, hpc⟩ := Option.bind_eq_some_iff.mp hstep
      obtain ⟨pc', hexpire, rfl⟩ := Option.map_eq_some_iff.mp hpc
      have hdone : pc'.done = false := by
        rw [(Call.expire_moves hexpire).same.done]
        exact hkeep pc hc
      exact hn.of_set hsound hc rfl (fun _ => hdone) fun _ _ _ _ => hdone
    | finish c =>
      change n.finishCall c = some n' at hstep
      unfold Node.finishCall at hstep
      split at hstep
      · cases hstep
      · obtain ⟨pc, hc, hpc⟩ := Option.bind_eq_some_iff.mp hstep
        obtain ⟨pc', hfinish, rfl⟩ := Option.map_eq_some_iff.mp hpc
        rcases Call.finish_spec hfinish with ⟨hphase, rfl⟩ | ⟨hphase, rfl⟩
        · refine hn.of_set hsound hc rfl nofun fun waitRet status hret hne => ?_
          cases hret
          exact absurd rfl hne
        · exact hn.of_set hsound hc rfl nofun fun _ _ _ _ => hn.expired c pc hc hphase
    | onData t buf polled =>
      refine (onData_frames_keeps (E := E) (Q := fun m : Node h ω => m.NoLost ∧ SamePhases n m)
        ?_ ?_ ?_ hkeep.1 ?_ ⟨hn, ⟨rfl, fun c pc hc => ⟨pc, hc, rfl⟩⟩⟩ hstep).1
      · exact fun m b hm => ⟨hm.1.of_calls (hm.1.sound.congr rfl rfl rfl) rfl, hm.2.pending, hm.2.phases⟩
      · exact fun m b hm => ⟨hm.1.of_calls (hm.1.sound.congr rfl rfl rfl) rfl, hm.2.pending, hm.2.phases⟩
      · exact fun m b hm => ⟨hm.1.of_calls (hm.1.sound.congr rfl rfl rfl) rfl, hm.2.pending, hm.2.phases⟩
      · intro f hf m hm
        exact hm.1.dispatch hm.2 (rpcDispatchMessage_spec E t f f.length m) (hkeep.2 f hf)

theorem initial_noLost (methodCap pendingCap transportCap : UInt8) (hasSend hasRecv : Nat → Bool)
    (world : ω) :
    (Node.initial h methodCap pendingCap transportCap hasSend hasRecv world).NoLost := by
  refine ⟨initial_sound _ _ _ _ _ world, ?_, ?_⟩
  · intro c pc hc
    cases hc
  · intro c pc waitRet status hc
    cases hc

/-- No accepted response is thrown away in a run in which no waiter times out after a response was
stored for its call, and no response arrives for a call that has timed out. -/
theorem accepted_returned {methodCap pendingCap transportCap : UInt8} {hasSend hasRecv : Nat → Bool}
    {world : ω} {acts : List (Action ω)} {n : Node h ω}
    (hkeep : Runs.Along (Node.step E) KeepsAnswers
      (Node.initial h methodCap pendingCap transportCap hasSend hasRecv world) acts)
    (hrun : Runs.run (Node.step E)
      (Node.initial h methodCap pendingCap transportCap hasSend hasRecv world) acts = some n) :
    AcceptedReturned n := by
  have hstep : ∀ (m : Node h ω) (a : Action ω) (m' : Node h ω), m.NoLost → KeepsAnswers m a →
      m.step E a = some m' → m'.NoLost := fun _ _ _ hm hk hs => hm.step hk hs
  exact (Runs.run_induction hstep (initial_noLost _ _ _ _ _ world) hkeep hrun).acceptedReturned

/-- A response that arrives while its call is blocked. -/
theorem accepted_returned_small :
    ∃ n, Runs.run (Node.step Env.granting) freshNode
        (waitingActs ++ [.onData 0 answerFrame [], .wake 0, .finish 0]) = some n ∧
      AcceptedReturned n := by
  have hphases : (Runs.run (Node.step Env.granting) freshNode waitingActs).map
      (fun n => n.calls.map Call.phase) = some [.blocked] := by
    decide +kernel
  have hsome : (Runs.run (Node.step Env.granting) freshNode
      (waitingActs ++ [.onData 0 answerFrame [], .wake 0, .finish 0])).isSome := by
    decide +kernel
  obtain ⟨n, hrun⟩ := Option.isSome_iff_exists.mp hsome
  refine ⟨n, hrun, accepted_returned ?_ hrun⟩
  refine ⟨trivial, fun s₁ h₁ => ⟨trivial, fun s₂ h₂ => ⟨trivial, fun s₃ h₃ => ⟨?_, fun s₄ _ =>
    ⟨trivial, fun s₅ _ => ⟨trivial, fun _ _ => trivial⟩⟩⟩⟩⟩⟩
  have hwaiting : Runs.run (Node.step Env.granting) freshNode waitingActs = some s₃ :=
    Runs.run_cons.mpr ⟨s₁, h₁, Runs.run_cons.mpr ⟨s₂, h₂, Runs.run_cons.mpr ⟨s₃, h₃, rfl⟩⟩⟩
  rw [hwaiting, Option.map_some, Option.some.injEq] at hphases
  refine ⟨below_of_w64 rfl _, fun f _ r _ c pc _ hpc hexp => ?_⟩
  have hmem := List.mem_map_of_mem (f := Call.phase) (List.mem_of_getElem? hpc)
  rw [hphases, hexp] at hmem
  simp at hmem

/-- A response that arrives after the timeout and before the second locked section is stored, and
the call reports the timeout. -/
theorem response_after_timeout_lost :
    ∃ n, Runs.run (Node.step Env.granting) freshNode
        (waitingActs ++ [.expire 0, .onData 0 answerFrame [], .finish 0]) = some n ∧
      ¬ AcceptedReturned n := by
  have heval : (Runs.run (Node.step Env.granting) freshNode
      (waitingActs ++ [.expire 0, .onData 0 answerFrame [], .finish 0])).map
        (fun n => n.calls[0]?.map fun pc => (pc.phase, pc.done)) =
      some (some (.returned (-1) 5, true)) := by
    decide +kernel
  obtain ⟨n, hrun, hphase⟩ := Option.map_eq_some_iff.mp heval
  obtain ⟨pc, hpc, hret⟩ := Option.map_eq_some_iff.mp hphase
  rw [Prod.mk.injEq] at hret
  refine ⟨n, hrun, fun hacc => ?_⟩
  have hwait := (hacc 0 pc (-1) 5 hpc hret.1 hret.2).1
  cases hwait

end CcRpc
