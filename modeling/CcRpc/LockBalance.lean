import CcRpc.PortCalls
import CcRpc.Matching

/-!
# The balance of the port lock

Every way through `rpc_call_with_tlv`, `rpc_bind_transport` and `rpc_register_method` that returns
gives the lock back. `rpc_on_data` does not when it polls the transport and receives nothing.
-/

namespace CcRpc

variable {h : Host} {ω : Type} {E : Env}

/-- As many calls of `rpc_port_unlock` as of `rpc_port_lock`. -/
def LockPaired (calls : List PortCall) : Prop := calls.count .unlock = calls.count .lock

/-- `rpc_on_data` is called without data and polls none. -/
def EmptyPoll (n : Node h ω) : Action ω → Prop
  | .onData t buf polled =>
    n.fault = false ∧ (n.transports t).hasRecv = true ∧ buf = [] ∧ polled = []
  | _ => False

/-- What a step that returns does to the lock. -/
structure Releases (n : Node h ω) (n' : Node h ω) (calls : List PortCall) : Prop where
  paired : LockPaired calls
  locked : n'.locked = n.locked

theorem Releases.refl (n : Node h ω) : Releases n n [] := ⟨rfl, rfl⟩

theorem count_putEntryCalls {κ ν : Type} {K : HashKey κ} (m : Hashmap K ν) (key : κ) (mallocs : Nat) :
    (putEntryCalls E m key mallocs).count .lock = 0 ∧
      (putEntryCalls E m key mallocs).count .unlock = 0 := by
  unfold putEntryCalls
  split
  · exact ⟨rfl, rfl⟩
  · split <;> exact ⟨by decide, by decide⟩

theorem count_removeCalls {κ ν : Type} {K : HashKey κ} (m : Hashmap K ν) (key : κ) :
    (removeCalls m key).count .lock = 0 ∧ (removeCalls m key).count .unlock = 0 := by
  unfold removeCalls
  split <;> exact ⟨by decide, by decide⟩

theorem count_rpcSendRequestTlvCalls (t : Nat) (seq : UInt32) (name tlv : Bytes) (n : Node h ω) :
    (rpcSendRequestTlvCalls E t seq name tlv n).count .lock = 0 ∧
      (rpcSendRequestTlvCalls E t seq name tlv n).count .unlock = 0 := by
  unfold rpcSendRequestTlvCalls
  split
  · split
    · split <;> exact ⟨by decide, by decide⟩
    · exact ⟨by decide, by decide⟩
  · exact ⟨rfl, rfl⟩

theorem rpcCallWithTlvTraced_releases {a : CallArgs} {n n' : Node h ω} {calls : List PortCall}
    (hstep : rpcCallWithTlvTraced E a n = some (n', calls)) (hfault : n'.fault = false) :
    Releases n n' calls := by
  unfold rpcCallWithTlvTraced at hstep
  split at hstep
  · cases hstep
    exact ⟨rfl, rfl⟩
  · next t ht =>
    split at hstep
    · cases hstep
    · obtain ⟨⟨seq, m⟩, hseq, heq⟩ := Option.map_eq_some_iff.mp hstep
      obtain ⟨⟨s, next⟩, -, hm⟩ := Option.map_eq_some_iff.mp hseq
      cases hm
      dsimp only [Node.heapMalloc] at heq
      split at heq
      · cases heq
        exact ⟨rfl, rfl⟩
      · split at heq
        · cases heq
          exact ⟨rfl, rfl⟩
        · split at heq
          · cases heq
            cases hfault
          · next pending mallocs hput =>
            generalize hx : rpcSendRequestTlv E t seq a.name a.tlv _ = x at heq
            have hserve := rpcSendRequestTlv_serves (E := E) t seq a.name a.tlv
              ({ n with nextSeq := next, mallocs := mallocs, waiters := n.waiters + 1,
                        pending := pending } : Node h ω)
            rw [hx] at hserve
            have hlock := hserve.tables.locked
            have hputCalls := count_putEntryCalls (E := E) n.pending seq (n.mallocs + 1)
            split at heq
            · cases heq
              refine ⟨?_, hlock⟩
              have hremove := count_removeCalls x.2.pending seq
              have hsend := count_rpcSendRequestTlvCalls (E := E) t seq a.name a.tlv
                ({ n with nextSeq := next, mallocs := mallocs, waiters := n.waiters + 1,
                          pending := pending } : Node h ω)
              simp [LockPaired, List.count_append, hputCalls, hremove, hsend]
            · cases heq
              refine ⟨?_, hlock⟩
              have hsend := count_rpcSendRequestTlvCalls (E := E) t seq a.name a.tlv
                ({ n with nextSeq := next, mallocs := mallocs, waiters := n.waiters + 1,
                          pending := pending } : Node h ω)
              simp [LockPaired, List.count_append, hputCalls, hsend]

theorem Node.finishCallTraced_releases {c : Nat} {n n' : Node h ω} {calls : List PortCall}
    (hstep : n.finishCallTraced c = some (n', calls)) : Releases n n' calls := by
  unfold Node.finishCallTraced at hstep
  split at hstep
  · cases hstep
  · obtain ⟨pc, -, hstep⟩ := Option.bind_eq_some_iff.mp hstep
    obtain ⟨pc', -, heq⟩ := Option.map_eq_some_iff.mp hstep
    cases heq
    have hremove := count_removeCalls n.pending pc'.seq
    exact ⟨by simp [LockPaired, List.count_append, hremove], rfl⟩

theorem rpcRegisterMethodTraced_releases {name : Bytes} {m : MethodEntry ω} {n n' : Node h ω}
    {calls : List PortCall} (hstep : rpcRegisterMethodTraced E name m n = some (n', calls))
    (hfault : n'.fault = false) : Releases n n' calls := by
  have hput := count_putEntryCalls (E := E) n.methods name (n.mallocs + 1)
  unfold rpcRegisterMethodTraced at hstep
  dsimp only [Node.heapMalloc] at hstep
  split at hstep
  · cases hstep
    exact ⟨rfl, rfl⟩
  · split at hstep
    · cases hstep
    · split at hstep
      · cases hstep
        cases hfault
      · cases hstep
        exact ⟨by simp [LockPaired, List.count_append, hput], rfl⟩

theorem rpcBindTransportTraced_releases {name : Bytes} {t : Nat} {n n' : Node h ω}
    {calls : List PortCall} (hstep : rpcBindTransportTraced E name t n = some (n', calls))
    (hfault : n'.fault = false) : Releases n n' calls := by
  have hput := count_putEntryCalls (E := E) n.transportMap name (n.mallocs + 1)
  unfold rpcBindTransportTraced at hstep
  dsimp only [Node.heapMalloc] at hstep
  split at hstep
  · cases hstep
    exact ⟨rfl, rfl⟩
  · split at hstep
    · cases hstep
    · split at hstep
      · cases hstep
        cases hfault
      · cases hstep
        exact ⟨by simp [LockPaired, List.count_append, hput], rfl⟩

/-- `rpc_on_data` unlocks last, unless it has nothing to do. -/
theorem rpcOnData_unlocks {σ : Type} {P : Ports σ} {recv : σ → Bytes × σ} (hrecv : P.recv = some recv)
    {buf : Bytes} {r r' : Reasm} {s s' : σ} (hdata : rpcOnData h P buf r s = some (r', s')) :
    (buf = [] ∧ (recv (P.rpcPortLock s)).1 = [] ∧ s' = (recv (P.rpcPortLock s)).2) ∨
      ¬ (buf = [] ∧ (recv (P.rpcPortLock s)).1 = []) ∧ ∃ s₁, s' = P.rpcPortUnlock s₁ := by
  unfold rpcOnData at hdata
  rw [hrecv] at hdata
  dsimp only at hdata
  by_cases hbuf : 0 < buf.length
  · rw [if_pos hbuf] at hdata
    dsimp only at hdata
    rw [if_neg (Nat.ne_of_gt hbuf)] at hdata
    obtain ⟨y, -, heq⟩ := Option.map_eq_some_iff.mp hdata
    cases heq
    refine Or.inr ⟨?_, _, rfl⟩
    intro hnil
    rw [hnil.1] at hbuf
    exact Nat.lt_irrefl 0 hbuf
  · have hnil : buf = [] := List.length_eq_zero_iff.mp (by omega)
    rw [if_neg hbuf] at hdata
    split at hdata
    · next hz =>
      cases hdata
      exact Or.inl ⟨hnil, List.length_eq_zero_iff.mp hz, rfl⟩
    · next hne =>
      obtain ⟨y, -, heq⟩ := Option.map_eq_some_iff.mp hdata
      cases heq
      refine Or.inr ⟨?_, _, rfl⟩
      intro hempty
      rw [hempty.2] at hne
      exact hne rfl

/-- A poll of nothing takes the lock and keeps it; every other call gives it back. -/
theorem Node.onDataTraced_spec {t : Nat} {buf polled : Bytes} {n n' : Node h ω}
    {calls : List PortCall} (hunlocked : n.locked = false)
    (hstep : n.onDataTraced E t buf polled = some (n', calls)) :
    ((n.transports t).hasRecv = true ∧ buf = [] ∧ polled = [] ∧ calls = [.lock] ∧
        n'.locked = true ∧ n'.fault = n.fault) ∨
      ¬ ((n.transports t).hasRecv = true ∧ buf = [] ∧ polled = []) ∧ Releases n n' calls := by
  unfold Node.onDataTraced at hstep
  dsimp only at hstep
  split at hstep
  · cases hstep
  · rw [rpcOnData_lockTraced, Option.map_map] at hstep
    obtain ⟨⟨r, m⟩, hdata, heq⟩ := Option.map_eq_some_iff.mp hstep
    cases hhas : (n.transports t).hasRecv with
    | false =>
      rw [hhas] at hdata heq
      cases hdata
      cases heq
      exact Or.inr ⟨by simp, rfl, rfl⟩
    | true =>
      rw [hhas] at hdata heq
      rcases rpcOnData_unlocks (P := Node.ports E t true polled) rfl hdata with
        ⟨hbuf, hpolled, rfl⟩ | ⟨hsome, m₁, rfl⟩
      · subst hbuf
        have hpolled' : polled = [] := hpolled
        subst hpolled'
        cases heq
        exact Or.inl ⟨rfl, rfl, rfl, rfl, rfl, rfl⟩
      · have hsome' : ¬ (buf = [] ∧ polled = []) := hsome
        simp only [Function.comp_apply, Node.ports, if_true, if_neg hsome', Prod.mk.injEq] at heq
        obtain ⟨rfl, rfl⟩ := heq
        exact Or.inr ⟨fun hall => hsome' hall.2, rfl, hunlocked.symm⟩

theorem Node.stepTraced_spec {n n' : Node h ω} {a : Action ω} {calls : List PortCall}
    (hunlocked : n.locked = false) (hstep : n.stepTraced E a = some (n', calls))
    (hfault : n'.fault = false) :
    (EmptyPoll n a ∧ calls = [.lock] ∧ n'.locked = true) ∨
      ¬ EmptyPoll n a ∧ Releases n n' calls := by
  have hthread : ∀ {f : Call → Option Call} {c : Nat},
      (n.stepCall f c).map (fun n => (n, ([] : List PortCall))) = some (n', calls) →
        Releases n n' calls := by
    intro f c hmoved
    obtain ⟨m, hm, heq⟩ := Option.map_eq_some_iff.mp hmoved
    obtain ⟨pc, -, hm⟩ := Option.bind_eq_some_iff.mp hm
    obtain ⟨pc', -, rfl⟩ := Option.map_eq_some_iff.mp hm
    cases heq
    exact ⟨rfl, rfl⟩
  unfold Node.stepTraced at hstep
  split at hstep
  · cases hstep
  · next hok =>
    cases a with
    | registerMethod name m => exact Or.inr ⟨id, rpcRegisterMethodTraced_releases hstep hfault⟩
    | bindTransport name t => exact Or.inr ⟨id, rpcBindTransportTraced_releases hstep hfault⟩
    | call a => exact Or.inr ⟨id, rpcCallWithTlvTraced_releases hstep hfault⟩
    | wait c => exact Or.inr ⟨id, hthread hstep⟩
    | wake c => exact Or.inr ⟨id, hthread hstep⟩
    | expire c => exact Or.inr ⟨id, hthread hstep⟩
    | finish c => exact Or.inr ⟨id, Node.finishCallTraced_releases hstep⟩
    | onData t buf polled =>
      rcases Node.onDataTraced_spec hunlocked hstep with ⟨hhas, hbuf, hpolled, hcalls, hlock, -⟩ | hrest
      · exact Or.inl ⟨⟨by simpa using hok, hhas, hbuf, hpolled⟩, hcalls, hlock⟩
      · exact Or.inr ⟨fun hpoll => hrest.1 hpoll.2, hrest.2⟩

theorem EmptyPoll.cases {n : Node h ω} {a : Action ω} (hpoll : EmptyPoll n a) :
    n.fault = false ∧ ∃ t, (n.transports t).hasRecv = true ∧ a = .onData t [] [] := by
  cases a with
  | onData t buf polled =>
    obtain ⟨hok, hhas, rfl, rfl⟩ := hpoll
    exact ⟨hok, t, hhas, rfl⟩
  | registerMethod name m => exact hpoll.elim
  | bindTransport name t => exact hpoll.elim
  | call a => exact hpoll.elim
  | wait c => exact hpoll.elim
  | wake c => exact hpoll.elim
  | expire c => exact hpoll.elim
  | finish c => exact hpoll.elim

theorem EmptyPoll.exists_stepTraced {n : Node h ω} {a : Action ω} (hpoll : EmptyPoll n a)
    (hunlocked : n.locked = false) :
    ∃ n' calls, n.stepTraced E a = some (n', calls) ∧ n'.fault = false := by
  obtain ⟨hok, t, hhas, rfl⟩ := hpoll.cases
  refine ⟨({ n with locked := true } : Node h ω).setReasm t (n.transports t).reasm, [.lock], ?_, hok⟩
  unfold Node.stepTraced
  rw [if_neg (by rw [hok]; exact Bool.false_ne_true)]
  dsimp only
  unfold Node.onDataTraced
  dsimp only
  rw [if_neg (by rw [hunlocked]; simp), hhas]
  rfl

/-- Every call of a run that returns has released the lock as often as it took it, and leaves it
free. -/
def LockBalanced (E : Env) (s : Node h ω) (acts : List (Action ω)) : Prop :=
  ∀ pre a n n' calls, pre ++ [a] <+: acts → Runs.run (Node.step E) s pre = some n →
    n.stepTraced E a = some (n', calls) → n'.fault = false → LockPaired calls ∧ n'.locked = false

theorem Node.exists_stepTraced {n n' : Node h ω} {a : Action ω} (hstep : n.step E a = some n') :
    ∃ calls, n.stepTraced E a = some (n', calls) := by
  rw [← n.stepTraced_fst E a] at hstep
  obtain ⟨⟨m, calls⟩, hm, rfl⟩ := Option.map_eq_some_iff.mp hstep
  exact ⟨calls, hm⟩

theorem along_of_fault {s : Node h ω} (hfault : s.fault = true) (acts : List (Action ω)) :
    Runs.Along (Node.step E) (fun n a => ¬ EmptyPoll n a) s acts := by
  cases acts with
  | nil => trivial
  | cons a as =>
    refine ⟨?_, fun s' hs' => ?_⟩
    · intro hpoll
      have hok := hpoll.cases.1
      rw [hfault] at hok
      cases hok
    · unfold Node.step at hs'
      rw [hfault, if_pos rfl] at hs'
      cases hs'

theorem lockBalanced_iff_along {s : Node h ω} (hunlocked : s.locked = false)
    (acts : List (Action ω)) :
    LockBalanced E s acts ↔ Runs.Along (Node.step E) (fun n a => ¬ EmptyPoll n a) s acts := by
  induction acts generalizing s with
  | nil =>
    refine iff_of_true ?_ trivial
    intro pre a n n' calls hpre
    simp at hpre
  | cons a as ih =>
    constructor
    · intro hbal
      have hfirst : ∀ s₁ calls, s.stepTraced E a = some (s₁, calls) → s₁.fault = false →
          LockPaired calls ∧ s₁.locked = false := by
        intro s₁ calls hs₁ hf
        exact hbal [] a s s₁ calls (by simp) rfl hs₁ hf
      refine ⟨?_, fun s₁ hs₁ => ?_⟩
      · intro hpoll
        obtain ⟨s₁, calls, hs₁, hf⟩ := hpoll.exists_stepTraced (E := E) hunlocked
        rcases Node.stepTraced_spec hunlocked hs₁ hf with ⟨-, -, hlock⟩ | ⟨hno, -⟩
        · rw [(hfirst s₁ calls hs₁ hf).2] at hlock
          cases hlock
        · exact hno hpoll
      · cases hf : s₁.fault with
        | true => exact along_of_fault hf as
        | false =>
          obtain ⟨calls, htraced⟩ := Node.exists_stepTraced hs₁
          refine (ih (hfirst s₁ calls htraced hf).2).mp ?_
          intro pre b n n' calls' hpre hrun
          exact hbal (a :: pre) b n n' calls' (by simpa using hpre) (Runs.run_cons.mpr ⟨s₁, hs₁, hrun⟩)
    · rintro ⟨hno, hrest⟩ pre b n n' calls hpre hrun hstep hf
      cases pre with
      | nil =>
        obtain ⟨rfl, -⟩ := List.cons_prefix_cons.mp hpre
        cases hrun
        rcases Node.stepTraced_spec hunlocked hstep hf with ⟨hpoll, -⟩ | ⟨-, hrel⟩
        · exact absurd hpoll hno
        · exact ⟨hrel.paired, by rw [hrel.locked, hunlocked]⟩
      | cons c pre =>
        obtain ⟨rfl, hpre'⟩ := List.cons_prefix_cons.mp hpre
        obtain ⟨s₁, hs₁, hrun⟩ := Runs.run_cons.mp hrun
        have hf₁ : s₁.fault = false := by
          by_contra hbad
          have hn := Runs.run_induction (C := fun _ _ => True) (P := fun m : Node h ω => m.fault = true)
            (by
              intro m b m' hm _ hm'
              unfold Node.step at hm'
              rw [hm, if_pos rfl] at hm'
              cases hm')
            (by simpa using hbad) (Runs.along_of_forall fun _ _ => trivial) hrun
          unfold Node.stepTraced at hstep
          rw [hn, if_pos rfl] at hstep
          cases hstep
        obtain ⟨calls₁, htraced⟩ := Node.exists_stepTraced hs₁
        have hs₁lock : s₁.locked = false := by
          rcases Node.stepTraced_spec hunlocked htraced hf₁ with ⟨hpoll, -⟩ | ⟨-, hrel⟩
          · exact absurd hpoll hno
          · rw [hrel.locked, hunlocked]
        exact (ih hs₁lock).mpr (hrest s₁ hs₁) pre b n n' calls hpre' hrun hstep hf

/-- The balance of the port lock: every call of a run that returns gives the lock back as often as
it took it, and leaves it free, exactly when `rpc_on_data` never polls a transport for nothing. -/
theorem lockBalanced_iff (E : Env) (methodCap pendingCap transportCap : UInt8)
    (hasSend hasRecv : Nat → Bool) (world : ω) (acts : List (Action ω)) :
    LockBalanced E (Node.initial h methodCap pendingCap transportCap hasSend hasRecv world) acts ↔
      Runs.Along (Node.step E) (fun n a => ¬ EmptyPoll n a)
        (Node.initial h methodCap pendingCap transportCap hasSend hasRecv world) acts :=
  lockBalanced_iff_along rfl acts

/-- One poll of nothing, and the lock is held while no call executes. -/
theorem emptyPoll_unbalanced :
    ¬ LockBalanced Env.granting freshNode [(.onData 0 [] [] : Action Unit)] := by
  rw [freshNode, lockBalanced_iff_along rfl]
  intro halong
  exact halong.1 ⟨rfl, rfl, rfl, rfl⟩

end CcRpc
