import CcRpc.Matching

/-!
# Responses from any transport

The pending table is one for all transports, and a response is looked up by its number alone. A
call is therefore completed only by a response with its own number, but by one from any transport.
-/

namespace CcRpc

variable {h : Host} {ω : Type} {E : Env}

/-- A response with the number of the call came in while the call was in flight. -/
def Answers (h : Host) (t : Nat) (l : List Event) (pc : Call) : Prop :=
  ∃ msg len r, .dispatched t msg len ∈ l ∧ responseIn h msg len = some r ∧ r.seq = pc.seq ∧
    pc.phase.InFlight

theorem Call.finish_same {pc pc' : Call} (hf : pc.finish = some pc') :
    pc'.done = pc.done ∧ pc'.buf = pc.buf := by
  rcases Call.finish_spec hf with ⟨-, rfl⟩ | ⟨-, rfl⟩
  · exact ⟨rfl, rfl⟩
  · exact ⟨rfl, rfl⟩

/-- Call `c` of the node has what is received so far of its answer, and how it got there. -/
structure Received (t : Nat) (n : Node h ω) (c : Nat) (pc : Call) (m : Node h ω) : Prop where
  sound : m.Sound
  log : ∃ l, m.log = n.log ++ l ∧ ∃ q, m.calls[c]? = some q ∧ q.seq = pc.seq ∧ q.phase = pc.phase ∧
    (q.done = pc.done ∧ q.buf = pc.buf ∨ Answers h t l pc)

theorem Received.congr {t c : Nat} {n m m' : Node h ω} {pc : Call} (hm : Received t n c pc m)
    (hp : m'.pending = m.pending) (hc : m'.calls = m.calls) (hl : m'.log = m.log) :
    Received t n c pc m' := by
  refine ⟨hm.sound.congr hp hc hl, ?_⟩
  rw [hl, hc]
  exact hm.log

theorem Received.dispatch {t c len : Nat} {msg : Bytes} {n m m' : Node h ω} {pc : Call}
    (hm : Received t n c pc m) (hd : Dispatches t msg len m m') : Received t n c pc m' := by
  refine ⟨hm.sound.dispatch hd, ?_⟩
  obtain ⟨l, hl, q, hq, hseq, hphase, hans⟩ := hm.log
  obtain ⟨l', hl', -⟩ := hd.log
  refine ⟨l ++ .dispatched t msg len :: l', by rw [hl', hl, List.append_assoc], ?_⟩
  have hmore : Answers h t l pc → Answers h t (l ++ .dispatched t msg len :: l') pc := by
    rintro ⟨msg', len', r, hmem, hr⟩
    exact ⟨msg', len', r, List.mem_append_left _ hmem, hr⟩
  have hcalls := hd.calls
  generalize m'.calls = calls at hcalls
  cases hcalls with
  | same => exact ⟨q, hq, hseq, hphase, hans.imp_right hmore⟩
  | stored hr hmsg hget hd' =>
    next r d pd =>
    rw [getElem?_set_call hd']
    by_cases hdc : d = c
    · subst hdc
      rw [hq] at hd'
      cases hd'
      obtain ⟨q', hq', hin, hqseq⟩ := (hm.sound.pending _ _).mp hget
      rw [hq] at hq'
      cases hq'
      refine ⟨q.store r hr, if_pos rfl, hseq, hphase, Or.inr ⟨msg, len, r, by simp, hmsg, ?_, ?_⟩⟩
      · rw [← hqseq, hseq]
      · rw [← hphase]
        exact hin
    · rw [if_neg hdc]
      exact ⟨q, hq, hseq, hphase, hans.imp_right hmore⟩

theorem Node.Sound.onData_received {t c : Nat} {buf polled : Bytes} {n n' : Node h ω} (hn : n.Sound)
    (hstep : n.onData E t buf polled = some n') {pc : Call} (hc : n.calls[c]? = some pc) :
    Received t n c pc n' := by
  refine onData_keeps E (P := Received t n c pc) ?_ ?_ ?_ ?_ ?_ hstep
  · exact fun m b hm => hm.congr rfl rfl rfl
  · exact fun m k hm => hm.congr rfl rfl rfl
  · exact fun m r hm => hm.congr rfl rfl rfl
  · exact fun msg len m hm => hm.dispatch (rpcDispatchMessage_spec E t msg len m)
  · exact ⟨hn, [], (List.append_nil _).symm, pc, hc, rfl, rfl, Or.inl ⟨rfl, rfl⟩⟩

theorem Node.stepCall_same {f : Call → Option Call}
    (hf : ∀ {pc pc' : Call}, f pc = some pc' → pc.Moves pc') {c d : Nat} {n n' : Node h ω}
    (hstep : n.stepCall f d = some n') {pc pc' : Call} (hc : n.calls[c]? = some pc)
    (hc' : n'.calls[c]? = some pc') : pc'.done = pc.done ∧ pc'.buf = pc.buf := by
  obtain ⟨pd, hd, hstep⟩ := Option.bind_eq_some_iff.mp hstep
  obtain ⟨pd', hpd, rfl⟩ := Option.map_eq_some_iff.mp hstep
  rw [getElem?_set_call hd] at hc'
  split at hc'
  · next hdc =>
    subst hdc
    rw [hc] at hd
    cases hd
    cases hc'
    exact ⟨(hf hpd).same.done, (hf hpd).same.buf⟩
  · rw [hc] at hc'
    cases hc'
    exact ⟨rfl, rfl⟩

/-- Only `rpc_on_data` marks a call done or stores in its buffer. -/
theorem Node.step_same {n n' : Node h ω} {a : Action ω} (hstep : n.step E a = some n')
    (ha : ∀ t buf polled, a ≠ .onData t buf polled) {c : Nat} {pc pc' : Call}
    (hc : n.calls[c]? = some pc) (hc' : n'.calls[c]? = some pc') :
    pc'.done = pc.done ∧ pc'.buf = pc.buf := by
  have hkept : n'.calls[c]? = some pc → pc'.done = pc.done ∧ pc'.buf = pc.buf := by
    intro hsame
    rw [hc'] at hsame
    cases hsame
    exact ⟨rfl, rfl⟩
  unfold Node.step at hstep
  split at hstep
  · cases hstep
  · cases a with
    | registerMethod name m => exact hkept (by rw [(rpcRegisterMethod_calls hstep).2.1, hc])
    | bindTransport name t => exact hkept (by rw [(rpcBindTransport_calls hstep).2.1, hc])
    | call a =>
      have hlt : c < n.calls.length := (List.getElem?_eq_some_iff.mp hc).1
      refine hkept ?_
      rcases (rpcCallWithTlv_spec hstep).1 with ⟨-, hcs, -⟩ | ⟨hcs, -⟩ | ⟨-, hcs, -⟩
      · rw [hcs, hc]
      · rw [hcs, List.getElem?_append_left hlt, hc]
      · rw [hcs, List.getElem?_append_left hlt, hc]
    | wait d => exact n.stepCall_same Call.wait_moves hstep hc hc'
    | wake d => exact n.stepCall_same Call.wake_moves hstep hc hc'
    | expire d => exact n.stepCall_same Call.expire_moves hstep hc hc'
    | finish d =>
      change n.finishCall d = some n' at hstep
      unfold Node.finishCall at hstep
      split at hstep
      · cases hstep
      · obtain ⟨pd, hd, hstep⟩ := Option.bind_eq_some_iff.mp hstep
        obtain ⟨pd', hpd, rfl⟩ := Option.map_eq_some_iff.mp hstep
        rw [getElem?_set_call hd] at hc'
        split at hc'
        · next hdc =>
          subst hdc
          rw [hc] at hd
          cases hd
          cases hc'
          exact Call.finish_same hpd
        · rw [hc] at hc'
          cases hc'
          exact ⟨rfl, rfl⟩
    | onData t buf polled => exact absurd rfl (ha t buf polled)

/-- Completion by number. In every state of every run, whatever step comes next: a call is marked
done, or its buffer written, only by `rpc_on_data` dispatching a response with the call's number
while the call is in flight. The transport may be any of the node's. -/
theorem completed_by_seq {methodCap pendingCap transportCap : UInt8} {hasSend hasRecv : Nat → Bool}
    {world : ω} {acts : List (Action ω)} {n n' : Node h ω} {a : Action ω}
    (hrun : Runs.run (Node.step E)
      (Node.initial h methodCap pendingCap transportCap hasSend hasRecv world) acts = some n)
    (hstep : n.step E a = some n') {c : Nat} {pc pc' : Call} (hc : n.calls[c]? = some pc)
    (hc' : n'.calls[c]? = some pc') (hchanged : pc'.done ≠ pc.done ∨ pc'.buf ≠ pc.buf) :
    ∃ t buf polled, a = .onData t buf polled ∧ Answers h t (n'.log.drop n.log.length) pc := by
  have hn := run_sound (initial_sound _ _ _ _ _ world) hrun
  by_cases ha : ∀ t buf polled, a ≠ .onData t buf polled
  · obtain ⟨hdone, hbuf⟩ := n.step_same hstep ha hc hc'
    rcases hchanged with hne | hne
    · exact absurd hdone hne
    · exact absurd hbuf hne
  · push Not at ha
    obtain ⟨t, buf, polled, rfl⟩ := ha
    refine ⟨t, buf, polled, rfl, ?_⟩
    unfold Node.step at hstep
    split at hstep
    · cases hstep
    · obtain ⟨l, hl, q, hq, -, -, hans⟩ := (hn.onData_received hstep hc).log
      rw [hc'] at hq
      cases hq
      rw [hl, List.drop_left]
      rcases hans with ⟨hdone, hbuf⟩ | hans
      · rcases hchanged with hne | hne
        · exact absurd hdone hne
        · exact absurd hbuf hne
      · exact hans

/-- The call of `waitingActs`, whose request went out on transport 0, and a response on transport 1. -/
theorem completed_by_seq_small :
    ∃ n n' : Node ⟨.little, .w64⟩ Unit,
      Runs.run (Node.step Env.granting) freshNode waitingActs = some n ∧
      n.step Env.granting (.onData 1 answerFrame []) = some n' ∧
      ∃ pc, n.calls[0]? = some pc ∧ ∃ t buf polled,
        (Action.onData 1 answerFrame [] : Action Unit) = .onData t buf polled ∧
          Answers ⟨.little, .w64⟩ t (n'.log.drop n.log.length) pc := by
  have heval : ((Runs.run (Node.step Env.granting) freshNode waitingActs).bind fun n =>
      (n.step Env.granting (.onData 1 answerFrame [])).map fun n' =>
        (n.calls[0]?.map Call.done, n'.calls[0]?.map Call.done)) = some (some false, some true) := by
    decide +kernel
  obtain ⟨n, hrun, heval⟩ := Option.bind_eq_some_iff.mp heval
  obtain ⟨n', hstep, heval⟩ := Option.map_eq_some_iff.mp heval
  rw [Prod.mk.injEq] at heval
  obtain ⟨pc, hc, hdone⟩ := Option.map_eq_some_iff.mp heval.1
  obtain ⟨pc', hc', hdone'⟩ := Option.map_eq_some_iff.mp heval.2
  refine ⟨n, n', hrun, hstep, pc, hc, completed_by_seq hrun hstep hc hc' (Or.inl ?_)⟩
  rw [hdone, hdone']
  exact Bool.noConfusion

/-- What is sent goes to transport 0, and what arrives is from transport 1. -/
def Event.crossed : Event → Bool
  | .sent t _ _ => t == 0
  | .dispatched t _ _ => t == 1
  | .ran _ _ => true

/-- Everything the call sent went to transport 0, and still the response on transport 1 completes
it. -/
theorem completed_by_other_transport :
    ∃ n n' : Node ⟨.little, .w64⟩ Unit,
      Runs.run (Node.step Env.granting) freshNode waitingActs = some n ∧
      n.step Env.granting (.onData 1 answerFrame []) = some n' ∧
      (∀ t msg ret, .sent t msg ret ∈ n'.log → t = 0) ∧
      (∀ t msg len, .dispatched t msg len ∈ n'.log → t = 1) ∧
      n.calls[0]?.map Call.done = some false ∧ n'.calls[0]?.map Call.done = some true := by
  have heval : ((Runs.run (Node.step Env.granting) freshNode waitingActs).bind fun n =>
      (n.step Env.granting (.onData 1 answerFrame [])).map fun n' =>
        (n.calls[0]?.map Call.done, n'.calls[0]?.map Call.done,
          n'.log.all Event.crossed)) = some (some false, some true, true) := by
    decide +kernel
  obtain ⟨n, hrun, heval⟩ := Option.bind_eq_some_iff.mp heval
  obtain ⟨n', hstep, heval⟩ := Option.map_eq_some_iff.mp heval
  simp only [Prod.mk.injEq, List.all_eq_true] at heval
  refine ⟨n, n', hrun, hstep, ?_, ?_, heval.1, heval.2.1⟩
  · intro t msg ret hmem
    exact beq_iff_eq.mp (heval.2.2 _ hmem)
  · intro t msg len hmem
    exact beq_iff_eq.mp (heval.2.2 _ hmem)

end CcRpc
