import CcRpc.LockBalance
import CcRpc.NodeSteps
import CcRpc.ReceivedStream

/-!
# A call whose answer arrives

A call that does not time out, and for whose number one response arrives, is woken by that response
and returns what it says, whatever else the node does in between. Its thread can then always go on:
the lock is free as long as no transport is polled for nothing.
-/

namespace CcRpc

variable {h : Host} {ω : Type} {E : Env}

/-- A call under the number `seq` with a buffer of `size` bytes that the message `g` answers, for what
was logged since it was issued. -/
structure Call.Awaits (h : Host) (seq : UInt32) (size : Nat) (g : Bytes) (log : List Event)
    (pc : Call) : Prop where
  seq_eq : pc.seq = seq
  size_eq : pc.bufSize = size
  buf : pc.buf.isSome
  outLen : pc.outLen.isSome
  answered : pc.done = true → ∃ t msg len r, Event.dispatched t msg len ∈ log ∧
    responseIn h msg len = some r ∧ pc.AnsweredBy r
  signaled : pc.done = true → pc.phase = .sent ∨ pc.phase = .blocked → pc.signaled = true
  phase : pc.phase = .sent ∨ pc.phase = .blocked ∨ pc.phase = .woken ∨ ∃ st, pc.phase = .returned 0 st
  complete : ∀ t, Event.dispatched t g g.length ∈ log → pc.done = true

theorem Call.Awaits.mono {seq : UInt32} {size : Nat} {g : Bytes} {log l : List Event} {pc : Call}
    (hpc : pc.Awaits h seq size g log)
    (hl : ∀ t, Event.dispatched t g g.length ∈ l → pc.done = true) :
    pc.Awaits h seq size g (log ++ l) := by
  refine ⟨hpc.seq_eq, hpc.size_eq, hpc.buf, hpc.outLen, fun hdone => ?_, hpc.signaled, hpc.phase, ?_⟩
  · obtain ⟨t, msg, len, r, hmem, hr, hans⟩ := hpc.answered hdone
    exact ⟨t, msg, len, r, List.mem_append_left _ hmem, hr, hans⟩
  · intro t hmem
    rcases List.mem_append.mp hmem with hmem | hmem
    · exact hpc.complete t hmem
    · exact hl t hmem

theorem Call.Awaits.store {seq : UInt32} {size : Nat} {g msg : Bytes} {log l : List Event} {pc : Call}
    (hpc : pc.Awaits h seq size g log) {r : Response} (hr : pc.copyLen r.msgLen ≤ r.payload.length)
    {t len : Nat} (hmsg : responseIn h msg len = some r) (hseq : r.seq = seq) :
    (pc.store r hr).Awaits h seq size g (log ++ .dispatched t msg len :: l) := by
  refine ⟨hpc.seq_eq, hpc.size_eq, ?_, hpc.outLen, fun _ => ?_, fun _ _ => rfl, hpc.phase,
    fun _ _ => rfl⟩
  · obtain ⟨b, hb⟩ := Option.isSome_iff_exists.mp hpc.buf
    simp [Call.store, Call.copy, hb]
  · refine ⟨t, msg, len, r, by simp, hmsg, pc.store_answeredBy hr ?_⟩
    rw [hseq, hpc.seq_eq]

/-- The call `c`, issued when the node was `n₁`. -/
structure Node.Awaits (n₁ : Node h ω) (c : Nat) (seq : UInt32) (size : Nat) (g : Bytes)
    (n : Node h ω) : Prop where
  sound : n.Sound
  call : ∃ l pc, n.log = n₁.log ++ l ∧ n.calls[c]? = some pc ∧ pc.Awaits h seq size g l

section Steps

variable {n₁ n n' : Node h ω} {c size : Nat} {seq : UInt32} {g : Bytes}

theorem Node.Awaits.congr (hn : n₁.Awaits c seq size g n) (hp : n'.pending = n.pending)
    (hc : n'.calls = n.calls) (hl : n'.log = n.log) : n₁.Awaits c seq size g n' := by
  refine ⟨hn.sound.congr hp hc hl, ?_⟩
  rw [hl, hc]
  exact hn.call

variable {r : Response} (hg : responseIn h g g.length = some r) (hseq : r.seq = seq)
  (hwhole : r.msgLen ≤ r.payload.length)

include hg hseq hwhole

theorem Node.Awaits.dispatch {t : Nat} {msg : Bytes} {len : Nat} (hn : n₁.Awaits c seq size g n) :
    n₁.Awaits c seq size g (rpcDispatchMessage E t msg len n) := by
  have hd := rpcDispatchMessage_spec E t msg len n
  refine ⟨hn.sound.dispatch hd, ?_⟩
  obtain ⟨l, pc, hl, hc, hpc⟩ := hn.call
  obtain ⟨l', hl', hquiet⟩ := hd.log
  have hlog : (rpcDispatchMessage E t msg len n).log = n₁.log ++ (l ++ .dispatched t msg len :: l') := by
    rw [hl', hl, List.append_assoc]
  have hnew : ∀ t', Event.dispatched t' g g.length ∈ Event.dispatched t msg len :: l' →
      g = msg ∧ g.length = len := by
    intro t' hmem
    rcases List.mem_cons.mp hmem with heq | hmem
    · cases heq
      exact ⟨rfl, rfl⟩
    · exact absurd hmem (hquiet t' g g.length)
  by_cases hmine : g = msg ∧ g.length = len ∧ pc.phase.InFlight
  · -- the answer arrives in time
    obtain ⟨rfl, rfl, hin⟩ := hmine
    have hget : n.pending.get r.seq = some c := by
      rw [hn.sound.pending]
      exact ⟨pc, hc, hin, by rw [hpc.seq_eq, hseq]⟩
    have hr : pc.copyLen r.msgLen ≤ r.payload.length := (pc.copyLen_le r.msgLen).2.trans hwhole
    refine ⟨_, pc.store r hr, hlog, ?_, hpc.store hr hg hseq⟩
    rw [rpcDispatchMessage_stores E hg hget hc hr, getElem?_set_call hc, if_pos rfl]
  · have hkept : pc.Awaits h seq size g (l ++ .dispatched t msg len :: l') := by
      apply hpc.mono
      intro t' hmem
      obtain ⟨hmsg, hlen⟩ := hnew t' hmem
      have hout : ¬ pc.phase.InFlight := fun hin => hmine ⟨hmsg, hlen, hin⟩
      rcases hpc.phase with hp | hp | hp | ⟨st, hp⟩
      · exact absurd (by rw [hp]; trivial) hout
      · exact absurd (by rw [hp]; trivial) hout
      · exact absurd (by rw [hp]; trivial) hout
      · exact ((hn.sound.calls c pc hc).returned st hp).1
    have hcalls := hd.calls
    generalize hcs : (rpcDispatchMessage E t msg len n).calls = calls at hcalls
    cases hcalls with
    | same => exact ⟨_, pc, hlog, hc, hkept⟩
    | stored hr hmsg hget hd' =>
      next r' d pd =>
      rw [getElem?_set_call hd']
      by_cases hdc : d = c
      · subst hdc
        rw [hc] at hd'
        cases hd'
        obtain ⟨q, hq, -, hqseq⟩ := (hn.sound.pending _ _).mp hget
        rw [hc] at hq
        cases hq
        exact ⟨_, _, hlog, if_pos rfl, hpc.store hr hmsg (hqseq.symm.trans hpc.seq_eq)⟩
      · exact ⟨_, pc, hlog, by rw [if_neg hdc, hc], hkept⟩

omit hg hseq hwhole

theorem Call.Awaits.move {log : List Event} {pc pc' : Call} (hpc : pc.Awaits h seq size g log)
    (hsame : pc.SameAnswer pc') (hout : pc'.outLen.isSome)
    (hsig : pc'.done = true → pc'.phase = .sent ∨ pc'.phase = .blocked → pc'.signaled = true)
    (hphase : pc'.phase = .sent ∨ pc'.phase = .blocked ∨ pc'.phase = .woken ∨
      ∃ st, pc'.phase = .returned 0 st) : pc'.Awaits h seq size g log := by
  refine ⟨hsame.seq.trans hpc.seq_eq, hsame.bufSize.trans hpc.size_eq, ?_, hout, ?_, hsig, hphase, ?_⟩
  · rw [hsame.buf]
    exact hpc.buf
  · intro hdone
    rw [hsame.done] at hdone
    obtain ⟨t, msg, len, r, hmem, hr, hans⟩ := hpc.answered hdone
    exact ⟨t, msg, len, r, hmem, hr, hans.congr hsame⟩
  · intro t hmem
    rw [hsame.done]
    exact hpc.complete t hmem

theorem Call.Awaits.turns {a : Action ω} {log : List Event} {pc pc' : Call}
    (hpc : pc.Awaits h seq size g log) (hturn : Call.Turns c a pc pc') (ha : a ≠ .expire c) :
    pc'.Awaits h seq size g log := by
  cases hturn with
  | wait hw =>
    have hsame := (Call.wait_moves hw).same
    unfold Call.wait at hw
    split at hw
    · next hsent =>
      rw [Option.some.injEq] at hw
      subst hw
      by_cases hsig : pc.signaled = true
      · rw [if_pos hsig] at hsame ⊢
        apply hpc.move hsame hpc.outLen _ (.inr (.inr (.inl rfl)))
        rintro - (hphase | hphase) <;> cases hphase
      · rw [if_neg hsig] at hsame ⊢
        apply hpc.move hsame hpc.outLen _ (.inr (.inl rfl))
        intro hdone _
        exact hpc.signaled hdone (.inl hsent)
    · cases hw
  | wake hw =>
    have hsame := (Call.wake_moves hw).same
    unfold Call.wake at hw
    split at hw
    · cases hw
      apply hpc.move hsame hpc.outLen _ (.inr (.inr (.inl rfl)))
      rintro - (hphase | hphase) <;> cases hphase
    · cases hw
  | expire hw => exact absurd rfl ha

theorem Call.Awaits.finish {log : List Event} {pc pc' : Call} (hpc : pc.Awaits h seq size g log)
    (hf : pc.finish = some pc') : pc'.Awaits h seq size g log := by
  rcases Call.finish_spec hf with ⟨-, rfl⟩ | ⟨hphase, rfl⟩
  · have hsame : pc.SameAnswer (pc.return 0) := ⟨rfl, rfl, rfl, rfl, rfl, rfl⟩
    apply hpc.move hsame _ _ (.inr (.inr (.inr ⟨_, rfl⟩)))
    · unfold Call.return
      dsimp only
      split
      · rfl
      · exact hpc.outLen
    · rintro - (hphase | hphase) <;> cases hphase
  · rcases hpc.phase with hp | hp | hp | ⟨st, hp⟩ <;> rw [hphase] at hp <;> cases hp

include hg hseq hwhole

theorem Node.Awaits.step {a : Action ω} (hn : n₁.Awaits c seq size g n) (ha : a ≠ .expire c)
    (hstep : n.step E a = some n') : n₁.Awaits c seq size g n' := by
  by_cases hdata : ∀ t buf polled, a ≠ .onData t buf polled
  · refine ⟨hn.sound.step hstep, ?_⟩
    obtain ⟨l, pc, hl, hc, hpc⟩ := hn.call
    obtain ⟨l', hl', hquiet⟩ := Node.step_quiet hstep hdata
    obtain ⟨pc', hc', hfares⟩ := Node.step_call hstep hdata hc
    have hpc' : pc'.Awaits h seq size g l := by
      cases hfares with
      | kept => exact hpc
      | thread hturn => exact hpc.turns hturn ha
      | finish hf => exact hpc.finish hf
    refine ⟨l ++ l', pc', by rw [hl', hl, List.append_assoc], hc', hpc'.mono ?_⟩
    intro t hmem
    exact absurd hmem (hquiet t g g.length)
  · push Not at hdata
    obtain ⟨t, buf, polled, rfl⟩ := hdata
    unfold Node.step at hstep
    split at hstep
    · cases hstep
    · apply onData_keeps E (P := n₁.Awaits c seq size g) _ _ _ _ hn hstep
      · exact fun m b hm => hm.congr rfl rfl rfl
      · exact fun m k hm => hm.congr rfl rfl rfl
      · exact fun m k hm => hm.congr rfl rfl rfl
      · exact fun msg len m hm => hm.dispatch hg hseq hwhole

theorem Node.Awaits.run {acts : List (Action ω)} (hn : n₁.Awaits c seq size g n)
    (hacts : Action.expire c ∉ acts) (hrun : Runs.run (Node.step E) n acts = some n') :
    n₁.Awaits c seq size g n' := by
  apply Runs.run_induction (C := fun _ a => a ≠ .expire c) _ hn _ hrun
  · exact fun m a m' hm ha hstep => hm.step hg hseq hwhole ha hstep
  · apply Runs.along_of_forall
    rintro a hmem rfl
    exact hacts hmem

omit hg hseq hwhole

/-- A step of the thread of the call `c` that is not a timeout. -/
def OwnStep (c : Nat) (a : Action ω) : Prop := a = .wait c ∨ a = .wake c ∨ a = .finish c

theorem OwnStep.log {a : Action ω} (ha : OwnStep c a) (hstep : n.step E a = some n') :
    n'.log = n.log := by
  cases Node.step_cases hstep with
  | thread _ _ => rfl
  | finish _ _ => rfl
  | _ => rcases ha with heq | heq | heq <;> cases heq

theorem OwnStep.run_log {own : List (Action ω)} (hown : ∀ a ∈ own, OwnStep c a)
    (hrun : Runs.run (Node.step E) n own = some n') : n'.log = n.log :=
  Runs.run_induction (C := fun _ a => OwnStep c a) (P := fun m : Node h ω => m.log = n.log)
    (fun _ _ _ hm ha hstep => (ha.log hstep).trans hm) rfl (Runs.along_of_forall hown) hrun

theorem Node.step_wait {pc pc' : Call} (hfault : n.fault = false) (hc : n.calls[c]? = some pc)
    (hw : pc.wait = some pc') :
    n.step E (.wait c) = some { n with calls := n.calls.set c pc' } := by
  have hok : ¬ n.fault = true := by
    rw [hfault]
    exact Bool.false_ne_true
  unfold Node.step
  rw [if_neg hok]
  dsimp only
  unfold Node.stepCall
  rw [hc]
  exact congrArg (Option.map _) hw

theorem Node.step_wake {pc pc' : Call} (hfault : n.fault = false) (hc : n.calls[c]? = some pc)
    (hw : pc.wake = some pc') :
    n.step E (.wake c) = some { n with calls := n.calls.set c pc' } := by
  have hok : ¬ n.fault = true := by
    rw [hfault]
    exact Bool.false_ne_true
  unfold Node.step
  rw [if_neg hok]
  dsimp only
  unfold Node.stepCall
  rw [hc]
  exact congrArg (Option.map _) hw

theorem run_finish (hfault : n.fault = false) (hlocked : n.locked = false) {pc : Call}
    (hc : n.calls[c]? = some pc) (hwoken : pc.phase = .woken) :
    ∃ n', Runs.run (Node.step E) n [.finish c] = some n' ∧ n'.calls[c]? = some (pc.return 0) := by
  have hfinish : pc.finish = some (pc.return 0) := by
    unfold Call.finish
    rw [hwoken]
  have hstep : n.step E (.finish c) = some { n with
      pending := (n.pending.remove (pc.return 0).seq).2, calls := n.calls.set c (pc.return 0) } := by
    have hok : ¬ n.fault = true := by
      rw [hfault]
      exact Bool.false_ne_true
    have hfree : ¬ n.locked = true := by
      rw [hlocked]
      exact Bool.false_ne_true
    unfold Node.step
    rw [if_neg hok]
    dsimp only
    unfold Node.finishCall
    rw [if_neg hfree, hc]
    exact congrArg (Option.map _) hfinish
  exact ⟨_, Runs.run_cons.mpr ⟨_, hstep, rfl⟩, by rw [getElem?_set_call hc, if_pos rfl]⟩

/-- The thread of an answered call can go on until it has returned. -/
theorem Node.Awaits.run_own (hn : n₁.Awaits c seq size g n) (hfault : n.fault = false)
    (hlocked : n.locked = false) {pc : Call} (hc : n.calls[c]? = some pc) (hdone : pc.done = true) :
    ∃ (own : List (Action ω)) (n' : Node h ω) (pc' : Call) (st : Int), (∀ a ∈ own, OwnStep c a) ∧
      Runs.run (Node.step E) n own = some n' ∧ n'.calls[c]? = some pc' ∧
        pc'.phase = .returned 0 st := by
  obtain ⟨l, q, -, hq, hpc⟩ := hn.call
  rw [hc] at hq
  cases hq
  have hset : ∀ pc', (n.calls.set c pc')[c]? = some pc' := by
    intro pc'
    rw [getElem?_set_call hc, if_pos rfl]
  rcases hpc.phase with hphase | hphase | hphase | ⟨st, hphase⟩
  · have hsig := hpc.signaled hdone (.inl hphase)
    have hw : pc.wait = some { pc with phase := .woken, signaled := false } := by
      unfold Call.wait
      rw [if_pos hphase, if_pos hsig]
    obtain ⟨n', hrun, hc'⟩ := run_finish (E := E) (n := { n with calls := n.calls.set c _ })
      hfault hlocked (hset { pc with phase := .woken, signaled := false }) rfl
    refine ⟨[.wait c, .finish c], n', _, _, ?_, ?_, hc', rfl⟩
    · simp [OwnStep]
    · exact Runs.run_cons.mpr ⟨_, Node.step_wait hfault hc hw, hrun⟩
  · have hsig := hpc.signaled hdone (.inr hphase)
    have hw : pc.wake = some { pc with phase := .woken, signaled := false } := by
      unfold Call.wake
      rw [if_pos ⟨hphase, hsig⟩]
    obtain ⟨n', hrun, hc'⟩ := run_finish (E := E) (n := { n with calls := n.calls.set c _ })
      hfault hlocked (hset { pc with phase := .woken, signaled := false }) rfl
    refine ⟨[.wake c, .finish c], n', _, _, ?_, ?_, hc', rfl⟩
    · simp [OwnStep]
    · exact Runs.run_cons.mpr ⟨_, Node.step_wake hfault hc hw, hrun⟩
  · obtain ⟨n', hrun, hc'⟩ := run_finish (E := E) hfault hlocked hc hphase
    refine ⟨[.finish c], n', _, _, ?_, hrun, hc', rfl⟩
    simp [OwnStep]
  · exact ⟨[], n, pc, st, by simp, rfl, hc, hphase⟩

include hg hseq hwhole

/-- An answered call returns what the answer says. -/
theorem Node.Awaits.returns (hn : n₁.Awaits c seq size g n) (hfault : n.fault = false)
    (hlocked : n.locked = false) {l : List Event} (hl : n.log = n₁.log ++ l) {t : Nat}
    (hmem : .dispatched t g g.length ∈ l)
    (halone : ∀ t' msg len r', .dispatched t' msg len ∈ l → responseIn h msg len = some r' →
      r'.seq = seq → r' = r) :
    ∃ (own : List (Action ω)) (n' : Node h ω) (pc : Call) (b : Bytes), (∀ a ∈ own, OwnStep c a) ∧
      Runs.run (Node.step E) n own = some n' ∧ n'.calls[c]? = some pc ∧
      pc.phase = .returned 0 r.status.toNat ∧ pc.buf = some b ∧ size ≤ b.length ∧
      pc.outLen = some (min r.msgLen size) ∧
      b.take (min r.msgLen size) = r.payload.take (min r.msgLen size) := by
  obtain ⟨l₀, pc₀, hl₀, hc₀, hpc₀⟩ := hn.call
  rw [hl, List.append_cancel_left_eq] at hl₀
  subst hl₀
  obtain ⟨own, n', pc, st, hown, hrun, hc, hphase⟩ :=
    hn.run_own (E := E) hfault hlocked hc₀ (hpc₀.complete t hmem)
  have hexpire : Action.expire c ∉ own := by
    intro hin
    rcases hown _ hin with heq | heq | heq <;> cases heq
  obtain ⟨hsound, l', q, hl', hq, hpc⟩ := hn.run hg hseq hwhole hexpire hrun
  rw [hc] at hq
  cases hq
  -- the thread logs nothing
  have hquiet := OwnStep.run_log hown hrun
  rw [hquiet, hl, List.append_cancel_left_eq] at hl'
  subst hl'
  obtain ⟨hdone, hst, hlen⟩ := (hsound.calls c pc hc).returned st hphase
  obtain ⟨t', msg, len, r', hmem', hr', hans⟩ := hpc.answered hdone
  have hrr : r' = r := halone t' msg len r' hmem' hr' (hans.seq.trans hpc.seq_eq)
  subst hrr
  obtain ⟨b, hb⟩ := Option.isSome_iff_exists.mp hpc.buf
  obtain ⟨k, hk⟩ := Option.isSome_iff_exists.mp hpc.outLen
  have hresp : pc.respLen = min r'.msgLen size := by
    rw [hans.respLen, hpc.size_eq]
  have hkresp := hlen hpc.buf k hk
  refine ⟨own, n', pc, b, hown, hrun, hc, ?_, hb, ?_, ?_, ?_⟩
  · rw [hphase, hst, hans.status]
  · rw [← hpc.size_eq]
    exact pc.room b hb
  · rw [hk, hkresp, hresp]
  · rw [← hresp]
    exact hans.buf b hb

end Steps

end CcRpc
