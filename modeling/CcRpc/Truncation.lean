import CcRpc.NodeSteps

/-!
# Payloads longer than the caller's buffer

`rpc_handle_response` copies what fits into the caller's buffer and keeps the status of the response.
A call whose buffer is too small therefore returns `RPC_STATUS_OK` with the first part of the payload
and no sign that the rest is missing.
-/

namespace CcRpc

variable {h : Host} {ω : Type} {E : Env}

/-- The bytes a call returned are the whole payload of the response. -/
def Call.Complete (b : Bytes) (l : Nat) (r : Response) : Prop :=
  l = r.msgLen ∧ b.take l = r.payload.take r.msgLen

/-- A call that has returned `RPC_STATUS_OK`, with its `out_tlv` and `*out_len`. -/
structure Call.ReturnedOk (pc : Call) (b : Bytes) (l : Nat) : Prop where
  phase : ∃ waitRet, pc.phase = .returned waitRet RpcStatus.ok.code.toNat
  buf : pc.buf = some b
  outLen : pc.outLen = some l

/-- The last response with this number among the messages dispatched so far. -/
def lastResponse (h : Host) (seq : UInt32) (log : List Event) : Option Response :=
  (log.filterMap fun
    | .dispatched _ msg len => (responseIn h msg len).filter fun r => r.seq = seq
    | .sent .. | .ran .. => none).getLast?

/-- A call that returns `RPC_STATUS_OK` by this step returns the whole payload of the response that
answered it, the last one that came with its number. -/
def Node.ReturnsWhole (E : Env) (n : Node h ω) (a : Action ω) : Prop :=
  ∀ c n' pc b l, a = .finish c → n.step E a = some n' → n'.calls[c]? = some pc → pc.ReturnedOk b l →
    ∃ r, lastResponse h pc.seq n.log = some r ∧ Call.Complete b l r

/-- Where a call with an `out_tlv` and an `out_len` is about to return `RPC_STATUS_OK`, the payload of the
response that answered it is no longer than its `*out_len`. -/
def Node.AnswerFits (n : Node h ω) (a : Action ω) : Prop :=
  ∀ c pc r, a = .finish c → n.calls[c]? = some pc → pc.phase = .woken → pc.status = RpcStatus.ok.code →
    pc.buf.isSome → pc.outLen.isSome → lastResponse h pc.seq n.log = some r → r.msgLen ≤ pc.bufSize

theorem lastResponse_quiet {seq : UInt32} {log l : List Event} (hl : Quiet l) :
    lastResponse h seq (log ++ l) = lastResponse h seq log := by
  have hnone : l.filterMap (fun
      | .dispatched _ msg len => (responseIn h msg len).filter fun r => r.seq = seq
      | .sent .. | .ran .. => none) = [] := by
    rw [List.filterMap_eq_nil_iff]
    intro e he
    cases e with
    | dispatched t msg len => exact absurd he (hl t msg len)
    | sent t msg ret => rfl
    | ran name param => rfl
  rw [lastResponse, List.filterMap_append, hnone, List.append_nil, lastResponse]

theorem lastResponse_dispatched {seq : UInt32} {t : Nat} {msg : Bytes} {len : Nat} {log l : List Event}
    (hl : Quiet l) : lastResponse h seq (log ++ .dispatched t msg len :: l) =
      ((responseIn h msg len).filter fun r => r.seq = seq).or (lastResponse h seq log) := by
  have hsplit : log ++ .dispatched t msg len :: l = (log ++ [.dispatched t msg len]) ++ l := by simp
  rw [hsplit, lastResponse_quiet hl, lastResponse, List.filterMap_append, List.getLast?_append]
  cases hr : (responseIn h msg len).filter fun r => r.seq = seq with
  | none => simp [hr, lastResponse]
  | some r => simp [hr]

/-- Every call in flight that has an answer has the last response with its number, as long as nothing
undefined has happened. -/
def Node.Answered (n : Node h ω) : Prop :=
  n.fault = false → ∀ (c : Nat) (pc : Call), n.calls[c]? = some pc → pc.phase.InFlight → pc.done = true →
    ∃ r, lastResponse h pc.seq n.log = some r ∧ pc.AnsweredBy r

theorem Node.Answered.congr {n n' : Node h ω} (hn : n.Answered) (hc : n'.calls = n.calls)
    (hl : n'.log = n.log) (hf : n'.fault = n.fault) : n'.Answered := by
  unfold Node.Answered
  rw [hc, hl, hf]
  exact hn

theorem Node.Answered.dispatch {t : Nat} {msg : Bytes} {len : Nat} {n : Node h ω} (hs : n.Sound)
    (hn : n.Answered) : (rpcDispatchMessage E t msg len n).Answered := by
  intro hok c pc hc hin hdone
  have hd := rpcDispatchMessage_spec E t msg len n
  obtain ⟨l, hl, hq⟩ := hd.log
  have hbefore : n.fault = false := by
    by_contra hfault
    rw [hd.fault (Bool.not_eq_false _ ▸ hfault)] at hok
    cases hok
  rw [hl, lastResponse_dispatched hq]
  -- a call that the message is not for keeps its answer
  have hother : n.calls[c]? = some pc → (∀ r, responseIn h msg len = some r → r.seq ≠ pc.seq) →
      ∃ r, ((responseIn h msg len).filter fun r => r.seq = pc.seq).or (lastResponse h pc.seq n.log) = some r ∧
        pc.AnsweredBy r := by
    intro hold hnot
    have hfilter : ((responseIn h msg len).filter fun r => r.seq = pc.seq) = none := by
      rw [Option.filter_eq_none_iff]
      intro r hr
      simpa using hnot r hr
    rw [hfilter, Option.none_or]
    exact hn hbefore c pc hold hin hdone
  have hcalls := hd.calls
  cases hr : responseIn h msg len with
  | none =>
    rw [hr] at hother
    generalize (rpcDispatchMessage E t msg len n).calls = calls at hcalls hc
    cases hcalls with
    | same => exact hother hc fun r hr' => by cases hr'
    | stored _ hmsg _ _ =>
      rw [hr] at hmsg
      cases hmsg
  | some r =>
    rw [hr] at hother
    cases hget : n.pending.get r.seq with
    | none =>
      generalize (rpcDispatchMessage E t msg len n).calls = calls at hcalls hc
      cases hcalls with
      | same =>
        apply hother hc
        intro r' hr' hseq
        cases hr'
        rw [(hs.pending r.seq c).mpr ⟨pc, hc, hin, hseq.symm⟩] at hget
        cases hget
      | stored _ hmsg hpending _ =>
        rw [hr] at hmsg
        cases hmsg
        rw [hget] at hpending
        cases hpending
    | some d =>
      obtain ⟨pd, hpd, hcopy⟩ := rpcDispatchMessage_copies E hok hr hget
      have hset := rpcDispatchMessage_stores E (t := t) hr hget hpd hcopy
      obtain ⟨pd', hpd', -, hseq⟩ := (hs.pending _ _).mp hget
      rw [hpd] at hpd'
      cases hpd'
      rw [hset, getElem?_set_call hpd] at hc
      split at hc
      · cases hc
        refine ⟨r, ?_, pd.store_answeredBy hcopy hseq.symm⟩
        have hsame : (pd.store r hcopy).seq = r.seq := hseq
        simp [hsame]
      · next hne =>
        apply hother hc
        intro r' hr' hseq'
        cases hr'
        have hsame := (hs.pending r.seq c).mpr ⟨pc, hc, hin, hseq'.symm⟩
        rw [hget] at hsame
        exact hne (Option.some.inj hsame)

theorem Node.Answered.step {n n' : Node h ω} {a : Action ω} (hs : n.Sound) (hn : n.Answered)
    (hstep : n.step E a = some n') : n'.Answered := by
  have hok := Node.step_fault hstep
  cases Node.step_cases hstep with
  | registerMethod _ _ _ _ => exact fun _ => hn hok
  | bindTransport _ _ _ => exact fun _ => hn hok
  | @call a _ hcall =>
    intro _ c pc hc hin hdone
    obtain ⟨l, hl, hq⟩ := hcall.log
    rw [hl, lastResponse_quiet hq]
    have hnew : ∀ {seq phase}, (n.calls ++ [a.toCall seq phase])[c]? = some pc → n.calls[c]? = some pc := by
      intro seq phase hc
      rcases List.mem_append.mp (List.mem_of_getElem? hc) with hmem | hmem
      · by_cases hlt : c < n.calls.length
        · rwa [List.getElem?_append_left hlt] at hc
        · rw [List.getElem?_append_right (Nat.le_of_not_lt hlt)] at hc
          have hpc := List.mem_singleton.mp (List.mem_of_getElem? hc)
          rw [hpc] at hdone
          cases hdone
      · rw [List.mem_singleton.mp hmem] at hdone
        cases hdone
    cases hcall.issues with
    | fault _ hcs _ =>
      rw [hcs] at hc
      exact hn hok c pc hc hin hdone
    | fails hcs _ =>
      rw [hcs] at hc
      exact hn hok c pc (hnew hc) hin hdone
    | sends _ hcs _ =>
      rw [hcs] at hc
      exact hn hok c pc (hnew hc) hin hdone
  | @thread _ d pd pd' hd hturn =>
    have hmove : pd.Moves pd' := by
      cases hturn with
      | wait hw => exact Call.wait_moves hw
      | wake hw => exact Call.wake_moves hw
      | expire hw => exact Call.expire_moves hw
    intro _ c pc hc hin hdone
    dsimp only at hc ⊢
    rw [getElem?_set_call hd] at hc
    split at hc
    · cases hc
      obtain ⟨r, hlast, hans⟩ := hn hok d pd hd hmove.before (by rw [← hmove.same.done]; exact hdone)
      rw [hmove.same.seq]
      exact ⟨r, hlast, hans.congr hmove.same⟩
    · exact hn hok c pc hc hin hdone
  | @finish d pd pd' hd hf =>
    intro _ c pc hc hin hdone
    dsimp only at hc ⊢
    rw [getElem?_set_call hd] at hc
    split at hc
    · cases hc
      rcases Call.finish_spec hf with ⟨-, rfl⟩ | ⟨-, rfl⟩ <;> exact hin.elim
    · exact hn hok c pc hc hin hdone
  | onData hdata =>
    refine (onData_keeps E (P := fun m : Node h ω => m.Sound ∧ m.Answered) ?_ ?_ ?_ ?_ ⟨hs, hn⟩ hdata).2
    · exact fun m b hm => ⟨hm.1.congr rfl rfl rfl, hm.2.congr rfl rfl rfl⟩
    · exact fun m k hm => ⟨hm.1.congr rfl rfl rfl, hm.2.congr rfl rfl rfl⟩
    · exact fun m r hm => ⟨hm.1.congr rfl rfl rfl, hm.2.congr rfl rfl rfl⟩
    · exact fun msg len m hm => ⟨hm.1.dispatch (rpcDispatchMessage_spec E _ msg len m), hm.2.dispatch hm.1⟩

theorem run_answered {methodCap pendingCap transportCap : UInt8} {hasSend hasRecv : Nat → Bool} {world : ω}
    {acts : List (Action ω)} {n : Node h ω}
    (hrun : Runs.run (Node.step E)
      (Node.initial h methodCap pendingCap transportCap hasSend hasRecv world) acts = some n) :
    n.Sound ∧ n.Answered := by
  apply Runs.run_invariant (P := fun m : Node h ω => m.Sound ∧ m.Answered) _ _ hrun
  · exact fun _ _ _ hm hstep => ⟨hm.1.step hstep, hm.2.step hm.1 hstep⟩
  · refine ⟨initial_sound _ _ _ _ _ world, fun _ c pc hc => ?_⟩
    cases hc

/-- A response that answered a call is returned whole if and only if its payload is no longer than
the caller's buffer. -/
theorem Call.AnsweredBy.complete_iff {pc : Call} {r : Response} {b : Bytes}
    (hans : pc.AnsweredBy r) (hb : pc.buf = some b) :
    Call.Complete b pc.respLen r ↔ r.msgLen ≤ pc.bufSize := by
  have hlen := hans.respLen
  constructor
  · intro hcomplete
    have hall := hcomplete.1
    omega
  · intro hfits
    have hall : pc.respLen = r.msgLen := by omega
    refine ⟨hall, ?_⟩
    rw [hans.buf b hb, hall]

theorem Call.finish_ok {pc pc' : Call} {b : Bytes} {l : Nat} (hf : pc.finish = some pc')
    (hret : pc'.ReturnedOk b l) :
    pc.phase = .woken ∧ pc' = pc.return 0 ∧ pc.status = RpcStatus.ok.code ∧ pc.buf = some b ∧
      pc.outLen.isSome ∧ l = pc.respLen := by
  obtain ⟨⟨waitRet, hphase⟩, hb, hlen⟩ := hret
  rcases Call.finish_spec hf with ⟨hwoken, rfl⟩ | ⟨-, rfl⟩
  · unfold Call.return at hphase hlen
    dsimp only at hphase hlen
    rw [if_pos rfl, Phase.returned.injEq] at hphase
    have hsome : pc.outLen.isSome := by
      by_contra hnone
      rw [if_neg fun hboth => hnone hboth.2] at hlen
      rw [hlen] at hnone
      exact hnone rfl
    have hbuf : pc.buf.isSome := by
      have hsame : pc.buf = some b := hb
      rw [hsame]
      rfl
    rw [if_pos ⟨hbuf, hsome⟩] at hlen
    exact ⟨hwoken, rfl, UInt16.toNat_inj.mp (Int.ofNat_inj.mp hphase.2), hb, hsome,
      (Option.some.inj hlen).symm⟩
  · unfold Call.return at hphase
    dsimp only at hphase
    rw [if_neg (by decide), Phase.returned.injEq] at hphase
    exact absurd hphase.2 (by decide)

/-- The return of a call by a step from a sound state. -/
theorem Node.Answered.finish {n n' : Node h ω} (hs : n.Sound) (hn : n.Answered) {c : Nat} {pc : Call}
    {b : Bytes} {l : Nat} (hstep : n.step E (.finish c) = some n') (hc : n'.calls[c]? = some pc)
    (hret : pc.ReturnedOk b l) :
    ∃ pd r, n.calls[c]? = some pd ∧ pd.phase = .woken ∧ pd.status = RpcStatus.ok.code ∧ pd.buf = some b ∧
      pd.outLen.isSome ∧ pc = pd.return 0 ∧ l = pd.respLen ∧ lastResponse h pd.seq n.log = some r ∧
        pd.AnsweredBy r := by
  have hok := Node.step_fault hstep
  cases Node.step_cases hstep with
  | thread _ hturn => cases hturn
  | @finish _ pd pd' hd hf =>
    dsimp only at hc
    rw [getElem?_set_call hd, if_pos rfl] at hc
    cases hc
    obtain ⟨hwoken, heq, hstatus, hb, hsome, hlen⟩ := Call.finish_ok hf hret
    have hdone := (hs.calls c pd hd).woken hwoken
    obtain ⟨r, hlast, hans⟩ := hn hok c pd hd (by rw [hwoken]; trivial) hdone
    exact ⟨pd, r, hd, hwoken, hstatus, hb, hsome, heq, hlen, hlast, hans⟩

/-- A call that returns `RPC_STATUS_OK` hands out what the last response with its number left in its
buffer, which is the whole payload if and only if that is no longer than the buffer. So the calls of a run
return whole payloads exactly when each answer fits the buffer of the call that returns it. -/
theorem returnedOk_complete_iff {methodCap pendingCap transportCap : UInt8}
    {hasSend hasRecv : Nat → Bool} {world : ω} {acts : List (Action ω)} {n : Node h ω}
    (hrun : Runs.run (Node.step E)
      (Node.initial h methodCap pendingCap transportCap hasSend hasRecv world) acts = some n) :
    (∀ (c : Nat) (n' : Node h ω) (pc : Call) (b : Bytes) (l : Nat), n.step E (.finish c) = some n' →
      n'.calls[c]? = some pc → pc.ReturnedOk b l →
        ∃ r, lastResponse h pc.seq n.log = some r ∧ pc.AnsweredBy r ∧ r.status = RpcStatus.ok.code ∧
          (Call.Complete b l r ↔ r.msgLen ≤ pc.bufSize)) ∧
    (Runs.Along (Node.step E) (Node.ReturnsWhole E)
        (Node.initial h methodCap pendingCap transportCap hasSend hasRecv world) acts ↔
      Runs.Along (Node.step E) Node.AnswerFits
        (Node.initial h methodCap pendingCap transportCap hasSend hasRecv world) acts) := by
  have hreturn : ∀ {m m' : Node h ω} {c : Nat} {pc : Call} {b : Bytes} {l : Nat}, m.Sound ∧ m.Answered →
      m.step E (.finish c) = some m' → m'.calls[c]? = some pc → pc.ReturnedOk b l →
        ∃ r, lastResponse h pc.seq m.log = some r ∧ pc.AnsweredBy r ∧ r.status = RpcStatus.ok.code ∧
          (Call.Complete b l r ↔ r.msgLen ≤ pc.bufSize) := by
    intro m m' c pc b l hm hstep hc hret
    obtain ⟨pd, r, -, -, hstatus, hb, -, rfl, rfl, hlast, hans⟩ := hm.2.finish hm.1 hstep hc hret
    exact ⟨r, hlast, hans.congr ⟨rfl, rfl, rfl, rfl, rfl, rfl⟩, by rw [← hans.status, hstatus],
      hans.complete_iff hb⟩
  refine ⟨fun c n' pc b l => hreturn (run_answered hrun), ?_⟩
  have hstart : (Node.initial h methodCap pendingCap transportCap hasSend hasRecv world).Sound ∧
      (Node.initial h methodCap pendingCap transportCap hasSend hasRecv world).Answered :=
    run_answered (show Runs.run (Node.step E) _ [] = some _ from rfl)
  apply Runs.along_iff (I := fun m : Node h ω => m.Sound ∧ m.Answered)
    (L := fun m a => (m.step E a).isSome) _ _ hstart (Runs.along_isSome hrun)
  · -- a call that would return a part does not return it whole
    rintro m a hm hsome hwhole c pc r rfl hc hwoken hstatus hbuf hlen hlast
    obtain ⟨m', hstep⟩ := Option.isSome_iff_exists.mp hsome
    obtain ⟨b, hb⟩ := Option.isSome_iff_exists.mp hbuf
    have hc' : m'.calls[c]? = some (pc.return 0) := by
      cases Node.step_cases hstep with
      | thread _ hturn => cases hturn
      | @finish _ pd pd' hd hf =>
        rw [hc] at hd
        cases hd
        dsimp only
        rw [getElem?_set_call hc, if_pos rfl]
        rcases Call.finish_spec hf with ⟨-, rfl⟩ | ⟨hexpired, -⟩
        · rfl
        · rw [hwoken] at hexpired
          cases hexpired
    have hret : (pc.return 0).ReturnedOk b pc.respLen := by
      refine ⟨⟨0, ?_⟩, hb, if_pos ⟨hbuf, hlen⟩⟩
      rw [← hstatus]
      rfl
    obtain ⟨r', hlast', -, -, hiff⟩ := hreturn hm hstep hc' hret
    obtain ⟨r'', hlast'', hcomplete⟩ := hwhole c m' _ b _ rfl hstep hc' hret
    rw [hlast'] at hlast''
    cases hlast''
    have hsame : lastResponse h pc.seq m.log = some r' := hlast'
    rw [hlast] at hsame
    cases hsame
    exact hiff.mp hcomplete
  · rintro m a hm hsome hfits
    obtain ⟨m', hstep⟩ := Option.isSome_iff_exists.mp hsome
    refine ⟨?_, m', hstep, hm.1.step hstep, hm.2.step hm.1 hstep⟩
    rintro c n' pc b l rfl hstep' hc hret
    obtain ⟨pd, r, hd, hwoken, hstatus, hb, hlen, rfl, rfl, hlast, hans⟩ :=
      hm.2.finish hm.1 hstep' hc hret
    refine ⟨r, hlast, (hans.complete_iff hb).mpr ?_⟩
    exact hfits c pd r rfl hd hwoken hstatus (by rw [hb]; rfl) hlen hlast

/-- A response of three bytes for the call of `waitingActs`, which has room for two. -/
def longAnswer : Bytes := [0, 0, 0, 0, 0, 1, 0, 0, 0, 3, 0, 0, 7, 8, 9]

/-- A response of two bytes for it. -/
def fittingAnswer : Bytes := [0, 0, 0, 0, 0, 1, 0, 0, 0, 2, 0, 0, 7, 8]

/-- What the call has returned in the end, and the length of the last response with its number. -/
def returnedTo (answer : Bytes) : Option ((Phase × Option Bytes × Option Nat) × Nat) :=
  (Runs.run (Node.step Env.granting) freshNode (waitingActs ++ [.onData 0 answer [], .wake 0])).bind fun n =>
    (n.step Env.granting (.finish 0)).bind fun n' =>
      n'.calls[0]?.bind fun pc => (lastResponse ⟨.little, .w64⟩ pc.seq n.log).map fun r =>
        ((pc.phase, pc.buf, pc.outLen), r.msgLen)

theorem returnedTo_eq {answer b : Bytes} {l k : Nat}
    (heval : returnedTo answer = some ((.returned 0 0, some b, some l), k)) :
    ∃ n n' pc r, Runs.run (Node.step Env.granting) freshNode
        (waitingActs ++ [.onData 0 answer [], .wake 0]) = some n ∧
      n.step Env.granting (.finish 0) = some n' ∧ n'.calls[0]? = some pc ∧ pc.ReturnedOk b l ∧
        lastResponse ⟨.little, .w64⟩ pc.seq n.log = some r ∧ r.msgLen = k := by
  obtain ⟨n, hrun, hn⟩ := Option.bind_eq_some_iff.mp heval
  obtain ⟨n', hstep, hn'⟩ := Option.bind_eq_some_iff.mp hn
  obtain ⟨pc, hpc, hlast⟩ := Option.bind_eq_some_iff.mp hn'
  obtain ⟨r, hr, heq⟩ := Option.map_eq_some_iff.mp hlast
  simp only [Prod.mk.injEq] at heq
  exact ⟨n, n', pc, r, hrun, hstep, hpc, ⟨⟨0, heq.1.1⟩, heq.1.2.1, heq.1.2.2⟩, hr, heq.2⟩

/-- A response that fills the buffer is returned whole. -/
theorem returnedOk_complete_iff_fitting :
    ∃ n n' pc, Runs.run (Node.step Env.granting) freshNode
        (waitingActs ++ [.onData 0 fittingAnswer [], .wake 0]) = some n ∧
      n.step Env.granting (.finish 0) = some n' ∧ n'.calls[0]? = some pc ∧ pc.ReturnedOk [7, 8] 2 ∧
        ∃ r, lastResponse ⟨.little, .w64⟩ pc.seq n.log = some r ∧
          (Call.Complete [7, 8] 2 r ↔ r.msgLen ≤ pc.bufSize) := by
  have heval : returnedTo fittingAnswer = some ((.returned 0 0, some [7, 8], some 2), 2) := by
    decide +kernel
  obtain ⟨n, n', pc, -, hrun, hstep, hpc, hok, -, -⟩ := returnedTo_eq heval
  obtain ⟨r, hlast, -, -, hiff⟩ := (returnedOk_complete_iff hrun).1 0 n' pc [7, 8] 2 hstep hpc hok
  exact ⟨n, n', pc, hrun, hstep, hpc, hok, r, hlast, hiff⟩

/-- A call with room for two bytes gets three and returns `RPC_STATUS_OK` with two. -/
theorem truncated_returnedOk :
    ∃ n, Runs.run (Node.step Env.granting) freshNode
        (waitingActs ++ [.onData 0 longAnswer [], .wake 0]) = some n ∧
      ¬ n.ReturnsWhole Env.granting (.finish 0) := by
  have heval : returnedTo longAnswer = some ((.returned 0 0, some [7, 8], some 2), 3) := by
    decide +kernel
  obtain ⟨n, n', pc, r, hrun, hstep, hpc, hok, hlast, hthree⟩ := returnedTo_eq heval
  refine ⟨n, hrun, ?_⟩
  intro hwhole
  obtain ⟨r', hlast', hcomplete⟩ := hwhole 0 n' pc [7, 8] 2 rfl hstep hpc hok
  rw [hlast] at hlast'
  cases hlast'
  rw [Call.Complete, hthree] at hcomplete
  exact absurd hcomplete.1 (by decide)

end CcRpc
