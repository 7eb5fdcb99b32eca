import CcRpc.NodeFrames

/-!
# Responses and calls

In every state of a node the pending table has exactly the calls that are issued and not returned,
each under its own number. A response is therefore stored in the call that asked for it or in none,
and what a call that was woken returns comes from one response.
-/

namespace CcRpc

variable {h : Host} {ω : Type} {E : Env}

/-- The pending table has exactly the calls in flight, each under its number. -/
def PendingOk (pending : Hashmap (intKey h.word) Nat) (calls : List Call) : Prop :=
  ∀ seq c, pending.get seq = some c ↔
    ∃ pc, calls[c]? = some pc ∧ pc.phase.InFlight ∧ pc.seq = seq

/-- What the response left in the call. -/
structure Call.AnsweredBy (pc : Call) (r : Response) : Prop where
  seq : r.seq = pc.seq
  status : pc.status = r.status
  respLen : pc.respLen = min r.msgLen pc.bufSize
  buf : ∀ b, pc.buf = some b → b.take pc.respLen = r.payload.take pc.respLen

/-- A call and the messages dispatched so far. -/
structure Call.Sound (h : Host) (log : List Event) (pc : Call) : Prop where
  answered : pc.done = true → ∃ t msg len r, Event.dispatched t msg len ∈ log ∧
    responseIn h msg len = some r ∧ pc.AnsweredBy r
  signaled : pc.signaled = true → pc.done = true
  woken : pc.phase = .woken → pc.done = true
  returned : ∀ status, pc.phase = .returned 0 status → pc.done = true ∧
    status = pc.status.toNat ∧ (pc.buf.isSome → ∀ l, pc.outLen = some l → l = pc.respLen)

structure Node.Sound (n : Node h ω) : Prop where
  pending : PendingOk n.pending n.calls
  calls : ∀ (c : Nat) (pc : Call), n.calls[c]? = some pc → pc.Sound h n.log

theorem Call.Sound.mono {log log' : List Event} {pc : Call} (hpc : pc.Sound h log)
    (hlog : ∀ e ∈ log, e ∈ log') : pc.Sound h log' := by
  refine ⟨fun hdone => ?_, hpc.signaled, hpc.woken, hpc.returned⟩
  obtain ⟨t, msg, len, r, hmem, hr, hans⟩ := hpc.answered hdone
  exact ⟨t, msg, len, r, hlog _ hmem, hr, hans⟩

/-- What a response leaves is the same in both. -/
structure Call.SameAnswer (pc pc' : Call) : Prop where
  seq : pc'.seq = pc.seq
  buf : pc'.buf = pc.buf
  bufSize : pc'.bufSize = pc.bufSize
  respLen : pc'.respLen = pc.respLen
  status : pc'.status = pc.status
  done : pc'.done = pc.done

theorem Call.AnsweredBy.congr {pc pc' : Call} {r : Response} (hans : pc.AnsweredBy r)
    (hsame : pc.SameAnswer pc') : pc'.AnsweredBy r := by
  refine ⟨?_, ?_, ?_, ?_⟩
  · rw [hsame.seq, hans.seq]
  · rw [hsame.status, hans.status]
  · rw [hsame.respLen, hsame.bufSize, hans.respLen]
  · rw [hsame.buf, hsame.respLen]
    exact hans.buf

theorem Call.Sound.answered_congr {log : List Event} {pc pc' : Call} (hs : pc.Sound h log)
    (hsame : pc.SameAnswer pc') (hdone : pc'.done = true) :
    ∃ t msg len r, Event.dispatched t msg len ∈ log ∧ responseIn h msg len = some r ∧
      pc'.AnsweredBy r := by
  rw [hsame.done] at hdone
  obtain ⟨t, msg, len, r, hmem, hr, hans⟩ := hs.answered hdone
  exact ⟨t, msg, len, r, hmem, hr, hans.congr hsame⟩

theorem Node.Sound.congr {n n' : Node h ω} (hn : n.Sound) (hp : n'.pending = n.pending)
    (hc : n'.calls = n.calls) (hl : n'.log = n.log) : n'.Sound := by
  refine ⟨?_, ?_⟩
  · rw [hp, hc]
    exact hn.pending
  · rw [hc, hl]
    exact hn.calls

theorem get_remove_int {w : WordSize} (m : Hashmap (intKey w) Nat) (key k : UInt32) :
    (m.remove key).2.get k = if key = k then none else m.get k := by
  rw [Hashmap.get_remove]
  simp [intKey]

theorem getElem?_set_call {calls : List Call} {c j : Nat} {pc pc' : Call}
    (hc : calls[c]? = some pc) :
    (calls.set c pc')[j]? = if c = j then some pc' else calls[j]? := by
  have hlt : c < calls.length := (List.getElem?_eq_some_iff.mp hc).1
  rw [List.getElem?_set]
  simp [hlt]

theorem PendingOk.set {pending : Hashmap (intKey h.word) Nat} {calls : List Call} {c : Nat}
    {pc pc' : Call} (hp : PendingOk pending calls) (hc : calls[c]? = some pc)
    (hseq : pc'.seq = pc.seq) (hphase : pc'.phase.InFlight ↔ pc.phase.InFlight) :
    PendingOk pending (calls.set c pc') := by
  intro seq j
  rw [hp seq j, getElem?_set_call hc]
  by_cases hj : c = j
  · subst hj
    rw [if_pos rfl, hc]
    simp only [Option.some.injEq, exists_eq_left', hseq, hphase]
  · rw [if_neg hj]

theorem PendingOk.remove {pending : Hashmap (intKey h.word) Nat} {calls : List Call} {c : Nat}
    {pc pc' : Call} (hp : PendingOk pending calls) (hc : calls[c]? = some pc)
    (hin : pc.phase.InFlight) (hout : ¬ pc'.phase.InFlight) :
    PendingOk (pending.remove pc.seq).2 (calls.set c pc') := by
  have hget : pending.get pc.seq = some c := (hp _ _).mpr ⟨pc, hc, hin, rfl⟩
  intro seq j
  rw [get_remove_int, getElem?_set_call hc]
  by_cases hseq : pc.seq = seq
  · rw [if_pos hseq]
    refine iff_of_false (fun hnone => by cases hnone) ?_
    rintro ⟨q, hq, hqin, hqseq⟩
    split at hq
    · cases hq
      exact hout hqin
    · next hcj =>
      have hj := (hp _ _).mpr ⟨q, hq, hqin, hqseq.trans hseq.symm⟩
      rw [hget] at hj
      cases hj
      exact hcj rfl
  · rw [if_neg hseq, hp seq j]
    by_cases hj : c = j
    · subst hj
      rw [if_pos rfl, hc]
      refine iff_of_false ?_ ?_
      · rintro ⟨q, hq, -, hqseq⟩
        cases hq
        exact hseq hqseq
      · rintro ⟨q, hq, hqin, -⟩
        cases hq
        exact hout hqin
    · rw [if_neg hj]

theorem PendingOk.fail {pending pending' : Hashmap (intKey h.word) Nat} {calls : List Call}
    {pc : Call} (hp : PendingOk pending calls) (hout : ¬ pc.phase.InFlight)
    (hget : ∀ k, pending'.get k = pending.get k) : PendingOk pending' (calls ++ [pc]) := by
  intro seq j
  rw [hget, hp seq j, List.getElem?_append]
  split
  · rfl
  · next hlt =>
    rw [List.getElem?_eq_none (Nat.le_of_not_lt hlt)]
    refine iff_of_false ?_ ?_
    · rintro ⟨q, hq, -⟩
      cases hq
    · rintro ⟨q, hq, hqin, -⟩
      obtain rfl := List.mem_singleton.mp (List.mem_of_getElem? hq)
      exact hout hqin

theorem PendingOk.issue {pending pending' : Hashmap (intKey h.word) Nat} {calls : List Call}
    {pc : Call} (hp : PendingOk pending calls) (hin : pc.phase.InFlight)
    (hfree : pending.get pc.seq = none)
    (hget : ∀ k, pending'.get k = if pc.seq = k then some calls.length else pending.get k) :
    PendingOk pending' (calls ++ [pc]) := by
  intro seq j
  rw [hget, List.getElem?_append]
  by_cases hseq : pc.seq = seq
  · rw [if_pos hseq]
    subst hseq
    split
    · next hlt =>
      refine iff_of_false (fun hj => ?_) ?_
      · rw [Option.some.injEq] at hj
        omega
      · intro hj
        rw [← hp, hfree] at hj
        cases hj
    · next hlt =>
      constructor
      · rintro hj
        cases hj
        exact ⟨pc, by rw [Nat.sub_self]; rfl, hin, rfl⟩
      · rintro ⟨q, hq, -, -⟩
        have hidx := (List.getElem?_eq_some_iff.mp hq).1
        rw [List.length_singleton] at hidx
        congr 1
        omega
  · rw [if_neg hseq, hp seq j]
    split
    · rfl
    · next hlt =>
      rw [List.getElem?_eq_none (Nat.le_of_not_lt hlt)]
      refine iff_of_false ?_ ?_
      · rintro ⟨q, hq, -⟩
        cases hq
      · rintro ⟨q, hq, -, hqseq⟩
        obtain rfl := List.mem_singleton.mp (List.mem_of_getElem? hq)
        exact hseq hqseq

theorem Call.store_answeredBy (pc : Call) {r : Response}
    (hr : pc.copyLen r.msgLen ≤ r.payload.length) (hseq : r.seq = pc.seq) :
    (pc.store r hr).AnsweredBy r := by
  refine ⟨hseq, rfl, ?_, ?_⟩
  · change pc.copyLen r.msgLen = min r.msgLen pc.bufSize
    unfold copyLen
    split <;> omega
  · intro b hb
    obtain ⟨b₀, hb₀, rfl⟩ := Option.map_eq_some_iff.mp hb
    change List.take (pc.copyLen r.msgLen) _ = r.payload.take (pc.copyLen r.msgLen)
    split
    · exact List.take_left' (List.length_take_of_le hr)
    · next hzero =>
      have h0 : pc.copyLen r.msgLen = 0 := by omega
      rw [h0, List.take_zero, List.take_zero]

theorem Node.Sound.dispatch {t : Nat} {msg : Bytes} {len : Nat} {n n' : Node h ω} (hn : n.Sound)
    (hd : Dispatches t msg len n n') : n'.Sound := by
  obtain ⟨l, hl, -⟩ := hd.log
  have hmono : ∀ e ∈ n.log, e ∈ n'.log := by
    intro e he
    rw [hl]
    exact List.mem_append_left _ he
  have hcalls := hd.calls
  generalize hcs : n'.calls = calls at hcalls
  cases hcalls with
  | same =>
    refine ⟨?_, ?_⟩
    · rw [hd.tables.pending, hcs]
      exact hn.pending
    · intro c pc hc
      rw [hcs] at hc
      exact (hn.calls c pc hc).mono hmono
  | stored hr hmsg hget hc =>
    next r c pc =>
    obtain ⟨pc', hc', hin, hseq⟩ := (hn.pending _ _).mp hget
    rw [hc] at hc'
    cases hc'
    refine ⟨?_, ?_⟩
    · rw [hd.tables.pending, hcs]
      exact hn.pending.set hc rfl Iff.rfl
    · intro j q hj
      rw [hcs, getElem?_set_call hc] at hj
      split at hj
      · cases hj
        refine ⟨fun _ => ?_, fun _ => rfl, fun _ => rfl, fun status hret => ?_⟩
        · refine ⟨t, msg, len, r, ?_, hmsg, pc.store_answeredBy hr hseq.symm⟩
          rw [hl]
          simp
        · have hphase : pc.phase = .returned 0 status := hret
          rw [hphase] at hin
          exact hin.elim
      · exact (hn.calls j q hj).mono hmono

/-- A call that is not in flight is out of reach of every dispatch. -/
theorem Node.Sound.dispatch_other {t : Nat} {msg : Bytes} {len : Nat} {n n' : Node h ω}
    (hn : n.Sound) (hd : Dispatches t msg len n n') {c : Nat} {pc : Call}
    (hc : n.calls[c]? = some pc) :
    n'.calls[c]? = some pc ∨
      ∃ r, responseIn h msg len = some r ∧ r.seq = pc.seq ∧ pc.phase.InFlight := by
  have hcalls := hd.calls
  generalize n'.calls = calls at hcalls
  cases hcalls with
  | same => exact Or.inl hc
  | stored hr hmsg hget hd =>
    next r d pd =>
    rw [getElem?_set_call hd]
    by_cases hdc : d = c
    · subst hdc
      rw [hc] at hd
      cases hd
      obtain ⟨pc', hc', hin, hseq⟩ := (hn.pending _ _).mp hget
      rw [hc] at hc'
      cases hc'
      exact Or.inr ⟨r, hmsg, hseq.symm, hin⟩
    · rw [if_neg hdc]
      exact Or.inl hc

theorem Node.Sound.onData {t : Nat} {buf polled : Bytes} {n n' : Node h ω} (hn : n.Sound)
    (hstep : n.onData E t buf polled = some n') : n'.Sound := by
  refine onData_keeps E (P := Node.Sound) ?_ ?_ ?_ ?_ hn hstep
  · exact fun m b hm => hm.congr rfl rfl rfl
  · exact fun m k hm => hm.congr rfl rfl rfl
  · exact fun m r hm => hm.congr rfl rfl rfl
  · exact fun msg len m hm => hm.dispatch (rpcDispatchMessage_spec E t msg len m)

theorem nextSeqLoop_free {pending : Hashmap (intKey h.word) Nat} {fuel : Nat} {g s next : UInt32}
    (hloop : nextSeqLoop pending fuel g = some (s, next)) : pending.get s = none := by
  induction fuel generalizing g with
  | zero => cases hloop
  | succ fuel ih =>
    rw [nextSeqLoop] at hloop
    split at hloop
    · exact ih hloop
    · next hfree =>
      cases hloop
      simpa [Hashmap.contains] using hfree

/-- What the first section of a call may do. -/
inductive Issues (n : Node h ω) (a : CallArgs) (n' : Node h ω) : Prop where
  /-- It stores through NULL in `hashmap_put`. -/
  | fault (hfault : n'.fault = true) (hc : n'.calls = n.calls) (hp : n'.pending = n.pending)
  /-- It returns an error. -/
  | fails {seq : UInt32} {status : Int} (hc : n'.calls = n.calls ++ [a.toCall seq (.failed status)])
      (hp : ∀ k, n'.pending.get k = n.pending.get k)
  /-- It goes on to wait. -/
  | sends {seq : UInt32} (hfree : n.pending.get seq = none)
      (hc : n'.calls = n.calls ++ [a.toCall seq .sent])
      (hp : ∀ k, n'.pending.get k = if seq = k then some n.calls.length else n.pending.get k)

theorem rpcSendRequestTlv_serves (t : Nat) (seq : UInt32) (name tlv : Bytes) (n : Node h ω) :
    n.Serves (rpcSendRequestTlv E t seq name tlv n).2 := by
  have hmalloc := n.heapMalloc_serves E
  unfold rpcSendRequestTlv
  split
  · dsimp only
    split
    · split
      · exact hmalloc.trans (Node.send_serves E t _ _)
      · exact hmalloc.trans (Node.faulted_serves _)
    · exact hmalloc
  · exact .refl n

theorem get_putEntry {κ ν : Type} {K : HashKey κ} {m m' : Hashmap K ν} {key : κ} {value : ν} {mallocs k' : Nat}
    (hput : putEntry E m key value mallocs = (some m', k')) (k : κ) :
    m'.get k = if K.equal key k then some value else m.get k := by
  unfold putEntry at hput
  split at hput
  · rw [Prod.mk.injEq] at hput
    exact Hashmap.get_put hput.1 k
  · rw [Prod.mk.injEq] at hput
    exact Hashmap.get_put hput.1 k

theorem get_putEntry_int {w : WordSize} {m m' : Hashmap (intKey w) Nat} {key : UInt32}
    {value mallocs k' : Nat} (hput : putEntry E m key value mallocs = (some m', k')) (k : UInt32) :
    m'.get k = if key = k then some value else m.get k := by
  rw [get_putEntry hput]
  simp [intKey]

theorem rpcCallWithTlv_spec {a : CallArgs} {n n' : Node h ω}
    (hstep : rpcCallWithTlv E a n = some n') :
    Issues n a n' ∧ ∃ l, n'.log = n.log ++ l ∧ Quiet l := by
  unfold rpcCallWithTlv at hstep
  split at hstep
  · cases hstep
    exact ⟨.fails rfl fun k => rfl, [], (List.append_nil _).symm, quiet_nil⟩
  · next t ht =>
    split at hstep
    · cases hstep
    · obtain ⟨⟨seq, m⟩, hseq, rfl⟩ := Option.map_eq_some_iff.mp hstep
      obtain ⟨⟨s, next⟩, hloop, heq⟩ := Option.map_eq_some_iff.mp hseq
      cases heq
      have hfree := nextSeqLoop_free hloop
      dsimp only [Node.heapMalloc]
      split
      · exact ⟨.fails rfl fun k => rfl, [], (List.append_nil _).symm, quiet_nil⟩
      · split
        · exact ⟨.fails rfl fun k => rfl, [], (List.append_nil _).symm, quiet_nil⟩
        · split
          · exact ⟨.fault rfl rfl rfl, [], (List.append_nil _).symm, quiet_nil⟩
          · next pending mallocs hput =>
            have hget := get_putEntry_int hput
            generalize hx : rpcSendRequestTlv E t seq a.name a.tlv _ = x
            have hserve := rpcSendRequestTlv_serves (E := E) t seq a.name a.tlv
              ({ n with nextSeq := next, mallocs := mallocs, waiters := n.waiters + 1,
                        pending := pending } : Node h ω)
            rw [hx] at hserve
            obtain ⟨l, hl, hq⟩ := hserve.log
            split
            · refine ⟨.fails (congrArg (· ++ _) hserve.calls) fun k => ?_, l, hl, hq⟩
              change (x.2.pending.remove seq).2.get k = _
              rw [hserve.tables.pending, get_remove_int, hget]
              split
              · next hsk => rw [← hsk, hfree]
              · rfl
            · refine ⟨.sends hfree (congrArg (· ++ _) hserve.calls) fun k => ?_, l, hl, hq⟩
              change x.2.pending.get k = _
              rw [hserve.tables.pending, hget]

theorem CallArgs.toCall_sound (a : CallArgs) (seq : UInt32) {phase : Phase} (log : List Event)
    (hphase : phase ≠ .woken ∧ ∀ status, phase ≠ .returned 0 status) :
    (a.toCall seq phase).Sound h log := by
  refine ⟨fun hdone => ?_, fun hsig => ?_, fun hwoken => ?_, fun status hret => ?_⟩
  · cases hdone
  · cases hsig
  · exact absurd hwoken hphase.1
  · exact absurd hret (hphase.2 status)

private theorem sound_append {calls : List Call} {pc : Call} {log : List Event}
    (hcalls : ∀ (c : Nat) (pc : Call), calls[c]? = some pc → pc.Sound h log) (hpc : pc.Sound h log) :
    ∀ (c : Nat) (q : Call), (calls ++ [pc])[c]? = some q → q.Sound h log := by
  intro c q hq
  rcases List.mem_append.mp (List.mem_of_getElem? hq) with hmem | hmem
  · obtain ⟨i, hi⟩ := List.getElem?_of_mem hmem
    exact hcalls i q hi
  · rw [List.mem_singleton.mp hmem]
    exact hpc

theorem Node.Sound.call {a : CallArgs} {n n' : Node h ω} (hn : n.Sound)
    (hstep : rpcCallWithTlv E a n = some n') : n'.Sound := by
  obtain ⟨hissue, l, hl, -⟩ := rpcCallWithTlv_spec hstep
  have hold : ∀ (c : Nat) (pc : Call), n.calls[c]? = some pc → pc.Sound h n'.log := by
    intro c pc hc
    refine (hn.calls c pc hc).mono fun e he => ?_
    rw [hl]
    exact List.mem_append_left _ he
  cases hissue with
  | fault hfault hc hp =>
    refine ⟨by rw [hp, hc]; exact hn.pending, by rw [hc]; exact hold⟩
  | fails hc hp =>
    refine ⟨by rw [hc]; exact hn.pending.fail id hp, ?_⟩
    rw [hc]
    exact sound_append hold (a.toCall_sound _ _ ⟨by simp, by simp⟩)
  | sends hfree hc hp =>
    refine ⟨by rw [hc]; exact hn.pending.issue trivial hfree hp, ?_⟩
    rw [hc]
    exact sound_append hold (a.toCall_sound _ _ ⟨by simp, by simp⟩)

/-- A move of the waiter keeps the answer of a call, and the call in flight. -/
structure Call.Moves (pc pc' : Call) : Prop where
  same : pc.SameAnswer pc'
  before : pc.phase.InFlight
  after : pc'.phase.InFlight
  sound : ∀ (h : Host) (log : List Event), pc.Sound h log → pc'.Sound h log

theorem Call.wait_moves {pc pc' : Call} (hw : pc.wait = some pc') : pc.Moves pc' := by
  unfold wait at hw
  split at hw
  · next hphase =>
    rw [Option.some.injEq] at hw
    subst hw
    split
    · next hsig =>
      refine ⟨⟨rfl, rfl, rfl, rfl, rfl, rfl⟩, by rw [hphase]; trivial, trivial, fun h log hs => ?_⟩
      exact ⟨hs.answered_congr ⟨rfl, rfl, rfl, rfl, rfl, rfl⟩, nofun, fun _ => hs.signaled hsig, nofun⟩
    · refine ⟨⟨rfl, rfl, rfl, rfl, rfl, rfl⟩, by rw [hphase]; trivial, trivial, fun h log hs => ?_⟩
      exact ⟨hs.answered_congr ⟨rfl, rfl, rfl, rfl, rfl, rfl⟩, hs.signaled, nofun, nofun⟩
  · cases hw

theorem Call.wake_moves {pc pc' : Call} (hw : pc.wake = some pc') : pc.Moves pc' := by
  unfold wake at hw
  split at hw
  · next hphase =>
    cases hw
    refine ⟨⟨rfl, rfl, rfl, rfl, rfl, rfl⟩, by rw [hphase.1]; trivial, trivial, fun h log hs => ?_⟩
    exact ⟨hs.answered_congr ⟨rfl, rfl, rfl, rfl, rfl, rfl⟩, nofun, fun _ => hs.signaled hphase.2,
      nofun⟩
  · cases hw

theorem Call.expire_moves {pc pc' : Call} (hw : pc.expire = some pc') : pc.Moves pc' := by
  unfold expire at hw
  split at hw
  · next hphase =>
    cases hw
    refine ⟨⟨rfl, rfl, rfl, rfl, rfl, rfl⟩, by rw [hphase]; trivial, trivial, fun h log hs => ?_⟩
    exact ⟨hs.answered_congr ⟨rfl, rfl, rfl, rfl, rfl, rfl⟩, hs.signaled, nofun, nofun⟩
  · cases hw

theorem Node.Sound.stepCall {f : Call → Option Call}
    (hf : ∀ {pc pc' : Call}, f pc = some pc' → pc.Moves pc') {c : Nat} {n n' : Node h ω}
    (hn : n.Sound) (hstep : n.stepCall f c = some n') : n'.Sound := by
  obtain ⟨pc, hc, hstep⟩ := Option.bind_eq_some_iff.mp hstep
  obtain ⟨pc', hpc, rfl⟩ := Option.map_eq_some_iff.mp hstep
  have hmove := hf hpc
  refine ⟨hn.pending.set hc hmove.same.seq (iff_of_true hmove.after hmove.before), ?_⟩
  intro j q hq
  rw [getElem?_set_call hc] at hq
  split at hq
  · cases hq
    exact hmove.sound h n.log (hn.calls c pc hc)
  · exact hn.calls j q hq

theorem Call.finish_spec {pc pc' : Call} (hf : pc.finish = some pc') :
    pc.phase = .woken ∧ pc' = pc.return 0 ∨ pc.phase = .expired ∧ pc' = pc.return (-1) := by
  unfold finish at hf
  split at hf
  · next hphase =>
    cases hf
    exact Or.inl ⟨hphase, rfl⟩
  · next hphase =>
    cases hf
    exact Or.inr ⟨hphase, rfl⟩
  · cases hf

theorem Call.Sound.return {log : List Event} {pc : Call} (hs : pc.Sound h log) {waitRet : Int}
    (hwait : waitRet = 0 → pc.done = true) : (pc.return waitRet).Sound h log := by
  refine ⟨hs.answered_congr ⟨rfl, rfl, rfl, rfl, rfl, rfl⟩, hs.signaled, nofun, fun status hret => ?_⟩
  unfold Call.return at hret ⊢
  dsimp only at hret ⊢
  rw [Phase.returned.injEq] at hret
  obtain ⟨hw, hst⟩ := hret
  rw [if_pos hw] at hst
  refine ⟨hwait hw, hst.symm, fun hbuf l hl => ?_⟩
  by_cases hlen : pc.outLen.isSome
  · rw [if_pos ⟨hbuf, hlen⟩] at hl
    exact (Option.some.inj hl).symm
  · rw [if_neg (fun hand => hlen hand.2)] at hl
    rw [hl] at hlen
    exact absurd rfl hlen

theorem Node.Sound.finishCall {c : Nat} {n n' : Node h ω} (hn : n.Sound)
    (hstep : n.finishCall c = some n') : n'.Sound := by
  unfold Node.finishCall at hstep
  split at hstep
  · cases hstep
  · obtain ⟨pc, hc, hstep⟩ := Option.bind_eq_some_iff.mp hstep
    obtain ⟨pc', hpc, rfl⟩ := Option.map_eq_some_iff.mp hstep
    have hsound := hn.calls c pc hc
    have hfin : pc.phase.InFlight ∧ ¬ pc'.phase.InFlight ∧ pc'.seq = pc.seq ∧ pc'.Sound h n.log := by
      rcases Call.finish_spec hpc with ⟨hphase, rfl⟩ | ⟨hphase, rfl⟩
      · exact ⟨by rw [hphase]; trivial, id, rfl, hsound.return fun _ => hsound.woken hphase⟩
      · exact ⟨by rw [hphase]; trivial, id, rfl, hsound.return fun h0 => by cases h0⟩
    obtain ⟨hin, hout, hseq, hs'⟩ := hfin
    refine ⟨?_, ?_⟩
    · dsimp only
      rw [hseq]
      exact hn.pending.remove hc hin hout
    · intro j q hq
      rw [getElem?_set_call hc] at hq
      split at hq
      · cases hq
        exact hs'
      · exact hn.calls j q hq

theorem rpcRegisterMethod_calls {name : Bytes} {m : MethodEntry ω} {n n' : Node h ω}
    (hstep : rpcRegisterMethod E name m n = some n') :
    n'.pending = n.pending ∧ n'.calls = n.calls ∧ n'.log = n.log := by
  unfold rpcRegisterMethod at hstep
  dsimp only [Node.heapMalloc] at hstep
  split at hstep
  · cases hstep
    exact ⟨rfl, rfl, rfl⟩
  · split at hstep
    · cases hstep
    · split at hstep <;> cases hstep <;> exact ⟨rfl, rfl, rfl⟩

theorem rpcBindTransport_calls {name : Bytes} {t : Nat} {n n' : Node h ω}
    (hstep : rpcBindTransport E name t n = some n') :
    n'.pending = n.pending ∧ n'.calls = n.calls ∧ n'.log = n.log := by
  unfold rpcBindTransport at hstep
  dsimp only [Node.heapMalloc] at hstep
  split at hstep
  · cases hstep
    exact ⟨rfl, rfl, rfl⟩
  · split at hstep
    · cases hstep
    · split at hstep <;> cases hstep <;> exact ⟨rfl, rfl, rfl⟩

/-- Every step keeps the invariant. -/
theorem Node.Sound.step {n n' : Node h ω} {a : Action ω} (hn : n.Sound)
    (hstep : n.step E a = some n') : n'.Sound := by
  unfold Node.step at hstep
  split at hstep
  · cases hstep
  · cases a with
    | registerMethod name m =>
      obtain ⟨hp, hc, hl⟩ := rpcRegisterMethod_calls hstep
      exact hn.congr hp hc hl
    | bindTransport name t =>
      obtain ⟨hp, hc, hl⟩ := rpcBindTransport_calls hstep
      exact hn.congr hp hc hl
    | call a => exact hn.call hstep
    | wait c => exact hn.stepCall Call.wait_moves hstep
    | wake c => exact hn.stepCall Call.wake_moves hstep
    | expire c => exact hn.stepCall Call.expire_moves hstep
    | finish c => exact hn.finishCall hstep
    | onData t buf polled => exact hn.onData hstep

/-- A call that has returned is not changed by any step. -/
theorem Node.Sound.step_returned {n n' : Node h ω} {a : Action ω} (hn : n.Sound)
    (hstep : n.step E a = some n') {c : Nat} {pc : Call} (hc : n.calls[c]? = some pc)
    (hout : ¬ pc.phase.InFlight) : n'.calls[c]? = some pc := by
  have hmove : ∀ {f : Call → Option Call} (d : Nat),
      (∀ {pc pc' : Call}, f pc = some pc' → pc.Moves pc') → n.stepCall f d = some n' →
        n'.calls[c]? = some pc := by
    intro f d hf hstep
    obtain ⟨pd, hd, hstep⟩ := Option.bind_eq_some_iff.mp hstep
    obtain ⟨pd', hpd, rfl⟩ := Option.map_eq_some_iff.mp hstep
    rw [getElem?_set_call hd]
    split
    · next hdc =>
      subst hdc
      rw [hc] at hd
      cases hd
      exact absurd (hf hpd).before hout
    · exact hc
  unfold Node.step at hstep
  split at hstep
  · cases hstep
  · cases a with
    | registerMethod name m => rw [(rpcRegisterMethod_calls hstep).2.1, hc]
    | bindTransport name t => rw [(rpcBindTransport_calls hstep).2.1, hc]
    | call a =>
      have hlt : c < n.calls.length := (List.getElem?_eq_some_iff.mp hc).1
      obtain ⟨hissue, -⟩ := rpcCallWithTlv_spec hstep
      cases hissue with
      | fault hfault hcs hp => rw [hcs, hc]
      | fails hcs hp => rw [hcs, List.getElem?_append_left hlt, hc]
      | sends hfree hcs hp => rw [hcs, List.getElem?_append_left hlt, hc]
    | wait d => exact hmove d Call.wait_moves hstep
    | wake d => exact hmove d Call.wake_moves hstep
    | expire d => exact hmove d Call.expire_moves hstep
    | finish d =>
      change n.finishCall d = some n' at hstep
      unfold Node.finishCall at hstep
      split at hstep
      · cases hstep
      · obtain ⟨pd, hd, hstep⟩ := Option.bind_eq_some_iff.mp hstep
        obtain ⟨pd', hpd, rfl⟩ := Option.map_eq_some_iff.mp hstep
        rw [getElem?_set_call hd]
        split
        · next hdc =>
          subst hdc
          rw [hc] at hd
          cases hd
          refine absurd ?_ hout
          rcases Call.finish_spec hpd with ⟨hphase, -⟩ | ⟨hphase, -⟩ <;> rw [hphase] <;> trivial
        · exact hc
    | onData t buf polled =>
      refine (onData_keeps E (P := fun m : Node h ω => m.Sound ∧ m.calls[c]? = some pc) ?_ ?_ ?_ ?_
        ⟨hn, hc⟩ hstep).2
      · exact fun m b hm => ⟨hm.1.congr rfl rfl rfl, hm.2⟩
      · exact fun m k hm => ⟨hm.1.congr rfl rfl rfl, hm.2⟩
      · exact fun m r hm => ⟨hm.1.congr rfl rfl rfl, hm.2⟩
      · rintro msg len m ⟨hm, hmc⟩
        have hd := rpcDispatchMessage_spec E t msg len m
        refine ⟨hm.dispatch hd, ?_⟩
        rcases hm.dispatch_other hd hmc with hsame | ⟨r, -, -, hin⟩
        · exact hsame
        · exact absurd hin hout

theorem initial_sound (methodCap pendingCap transportCap : UInt8) (hasSend hasRecv : Nat → Bool)
    (world : ω) :
    (Node.initial h methodCap pendingCap transportCap hasSend hasRecv world).Sound := by
  refine ⟨?_, ?_⟩
  · intro seq c
    refine iff_of_false ?_ ?_
    · intro hget
      cases hget
    · rintro ⟨pc, hc, -⟩
      cases hc
  · intro c pc hc
    cases hc

theorem run_sound {n n' : Node h ω} (hn : n.Sound) {acts : List (Action ω)}
    (hrun : Runs.run (Node.step E) n acts = some n') : n'.Sound :=
  Runs.run_invariant (fun _ _ _ hs hstep => hs.step hstep) hn hrun

/-- Response matching. In every state a node can reach: what a woken call returned is from one
response dispatched to this node with the call's own number; a dispatched message changes at most
the call in flight whose number it carries; no step changes a call that has returned, nor its
buffer; and the pending table has exactly the calls in flight, under different numbers. -/
theorem response_matching {methodCap pendingCap transportCap : UInt8} {hasSend hasRecv : Nat → Bool}
    {world : ω} {acts : List (Action ω)} {n : Node h ω}
    (hrun : Runs.run (Node.step E)
      (Node.initial h methodCap pendingCap transportCap hasSend hasRecv world) acts = some n) :
    (∀ (c : Nat) (pc : Call) (status : Int), n.calls[c]? = some pc →
      pc.phase = .returned 0 status →
        ∃ t msg len r, .dispatched t msg len ∈ n.log ∧ responseIn h msg len = some r ∧
          r.seq = pc.seq ∧ status = r.status.toNat ∧
          ∀ b l, pc.buf = some b → pc.outLen = some l →
            l = min r.msgLen pc.bufSize ∧ b.take l = r.payload.take l) ∧
      (∀ (t : Nat) (msg : Bytes) (len c : Nat) (pc : Call), n.calls[c]? = some pc →
        (rpcDispatchMessage E t msg len n).calls[c]? = some pc ∨
          ∃ r, responseIn h msg len = some r ∧ r.seq = pc.seq ∧ pc.phase.InFlight) ∧
      (∀ (a : Action ω) (n' : Node h ω), n.step E a = some n' → ∀ (c : Nat) (pc : Call),
        n.calls[c]? = some pc → ¬ pc.phase.InFlight → n'.calls[c]? = some pc) ∧
      (∀ seq c, (seq, c) ∈ n.pending.entries ↔
        ∃ pc, n.calls[c]? = some pc ∧ pc.phase.InFlight ∧ pc.seq = seq) ∧
      (n.pending.entries.map Prod.fst).Nodup := by
  have hn := run_sound (initial_sound _ _ _ _ _ world) hrun
  refine ⟨?_, ?_, ?_, ?_, ?_⟩
  · intro c pc status hc hret
    have hpc := hn.calls c pc hc
    obtain ⟨hdone, hst, hlen⟩ := hpc.returned status hret
    obtain ⟨t, msg, len, r, hmem, hr, hans⟩ := hpc.answered hdone
    refine ⟨t, msg, len, r, hmem, hr, hans.seq, by rw [hst, hans.status], ?_⟩
    intro b l hb hl
    have hl' := hlen (by rw [hb]; rfl) l hl
    rw [hl', ← hans.respLen]
    exact ⟨rfl, hans.buf b hb⟩
  · intro t msg len c pc hc
    exact hn.dispatch_other (rpcDispatchMessage_spec E t msg len n) hc
  · intro a n' hstep c pc hc hout
    exact hn.step_returned hstep hc hout
  · intro seq c
    rw [← hn.pending seq c]
    constructor
    · exact Hashmap.get_of_mem_entries
    · intro hget
      obtain ⟨k, hk, hmem⟩ := Hashmap.mem_entries_of_get hget
      have hks : k = seq := by simpa [intKey] using hk
      rw [← hks]
      exact hmem
  · have hdist := n.pending.entries_distinct
    unfold Assoc.Distinct at hdist
    rw [List.Nodup, List.pairwise_map]
    refine hdist.imp ?_
    intro x y hxy heq
    rw [heq] at hxy
    simp [intKey] at hxy

/-- Surroundings that grant every request. -/
def Env.granting : Env where
  heapMalloc _ := true
  waiterCreate _ := true
  send _ msg := msg.length

/-- A node with one transport, bound for the method `e`, and a call of that method waiting. -/
def waitingActs : List (Action Unit) :=
  [.bindTransport [0x65] 0,
    .call ⟨[0x65], [], some [0, 0], some 2, by intro b l hb hl; cases hb; cases hl; decide⟩, .wait 0]

def freshNode : Node ⟨.little, .w64⟩ Unit :=
  Node.initial _ 16 16 4 (fun _ => true) (fun _ => true) ()

/-- A response of one byte for that call. -/
def answerFrame : Bytes := [0, 0, 0, 0, 0, 1, 0, 0, 0, 1, 0, 0, 7]

/-- The call is woken by a response and returns what it says. -/
theorem response_matching_small :
    ∃ n, Runs.run (Node.step Env.granting) freshNode
        (waitingActs ++ [.onData 0 answerFrame [], .wake 0, .finish 0]) = some n ∧
      ∃ pc, n.calls[0]? = some pc ∧ pc.phase = .returned 0 0 ∧
        ∃ t msg len r, .dispatched t msg len ∈ n.log ∧
          responseIn ⟨.little, .w64⟩ msg len = some r ∧ r.seq = pc.seq ∧ 0 = r.status.toNat := by
  have heval : (Runs.run (Node.step Env.granting) freshNode
      (waitingActs ++ [.onData 0 answerFrame [], .wake 0, .finish 0])).map
        (fun n => n.calls[0]?.map Call.phase) = some (some (.returned 0 0)) := by
    decide +kernel
  obtain ⟨n, hrun, hphase⟩ := Option.map_eq_some_iff.mp heval
  obtain ⟨pc, hpc, hret⟩ := Option.map_eq_some_iff.mp hphase
  obtain ⟨t, msg, len, r, hmem, hr, hseq, hst, -⟩ := (response_matching hrun).1 0 pc 0 hpc hret
  exact ⟨n, hrun, pc, hpc, hret, t, msg, len, r, hmem, hr, hseq, Int.ofNat_inj.mp hst⟩

end CcRpc
