import CcRpc.Matching

/-!
# The steps of a node, case by case

What each entry of the library can do to a node, said once: registering and binding touch one table,
the thread of a call touches its call, and the first section of `rpc_call_with_tlv` has five ways
through it.
-/

namespace CcRpc

variable {h : Host} {ω : Type} {E : Env}

/-- What a node starts with. -/
structure Boot (ω : Type) where
  methodCap : UInt8
  pendingCap : UInt8
  transportCap : UInt8
  hasSend : Nat → Bool
  hasRecv : Nat → Bool
  world : ω

def Boot.node (h : Host) (b : Boot ω) : Node h ω :=
  Node.initial h b.methodCap b.pendingCap b.transportCap b.hasSend b.hasRecv b.world

/-- A node with nothing bound or registered. -/
def smallBoot : Boot Unit := ⟨16, 16, 4, fun _ => true, fun _ => true, ()⟩

theorem rpcRegisterMethod_eq {name : Bytes} {m : MethodEntry ω} {n n' : Node h ω}
    (hstep : rpcRegisterMethod E name m n = some n') :
    ∃ methods mallocs fault, n' = { n with methods := methods, mallocs := mallocs, fault := fault } := by
  unfold rpcRegisterMethod at hstep
  dsimp only [Node.heapMalloc] at hstep
  split at hstep
  · cases hstep
    exact ⟨_, _, _, rfl⟩
  · split at hstep
    · cases hstep
    · split at hstep <;> cases hstep <;> exact ⟨_, _, _, rfl⟩

theorem rpcBindTransport_eq {name : Bytes} {t : Nat} {n n' : Node h ω}
    (hstep : rpcBindTransport E name t n = some n') :
    ∃ map mallocs fault, n' = { n with transportMap := map, mallocs := mallocs, fault := fault } := by
  unfold rpcBindTransport at hstep
  dsimp only [Node.heapMalloc] at hstep
  split at hstep
  · cases hstep
    exact ⟨_, _, _, rfl⟩
  · split at hstep
    · cases hstep
    · split at hstep <;> cases hstep <;> exact ⟨_, _, _, rfl⟩

theorem Node.stepCall_eq {f : Call → Option Call} {c : Nat} {n n' : Node h ω}
    (hstep : n.stepCall f c = some n') :
    ∃ pc pc', n.calls[c]? = some pc ∧ f pc = some pc' ∧ n' = { n with calls := n.calls.set c pc' } := by
  obtain ⟨pc, hc, hstep⟩ := Option.bind_eq_some_iff.mp hstep
  obtain ⟨pc', hf, rfl⟩ := Option.map_eq_some_iff.mp hstep
  exact ⟨pc, pc', hc, hf, rfl⟩

theorem Node.finishCall_eq {c : Nat} {n n' : Node h ω} (hstep : n.finishCall c = some n') :
    ∃ pc pc', n.calls[c]? = some pc ∧ pc.finish = some pc' ∧
      n' = { n with pending := (n.pending.remove pc'.seq).2, calls := n.calls.set c pc' } := by
  unfold Node.finishCall at hstep
  split at hstep
  · cases hstep
  · obtain ⟨pc, hc, hstep⟩ := Option.bind_eq_some_iff.mp hstep
    obtain ⟨pc', hf, rfl⟩ := Option.map_eq_some_iff.mp hstep
    exact ⟨pc, pc', hc, hf, rfl⟩

/-- The ways through the first section of `rpc_call_with_tlv`. -/
inductive FirstSection (E : Env) (a : CallArgs) (n : Node h ω) : Node h ω → Prop where
  /-- No transport is bound for the name. -/
  | unbound : FirstSection E a n (n.failCall a 0 .transportError)
  /-- There is no memory for the call or its waiter. -/
  | refused {seq next : UInt32} (mallocs waiters : Nat)
      (hseq : nextSeqLoop n.pending (2 ^ 32) n.nextSeq = some (seq, next)) :
      FirstSection E a n
        (({ n with nextSeq := next, mallocs := mallocs, waiters := waiters } : Node h ω).failCall a seq
          .internalError)
  /-- `hashmap_put` stores through NULL. -/
  | faults {seq next : UInt32} (mallocs waiters : Nat)
      (hseq : nextSeqLoop n.pending (2 ^ 32) n.nextSeq = some (seq, next)) :
      FirstSection E a n
        ({ n with nextSeq := next, mallocs := mallocs, waiters := waiters } : Node h ω).faulted
  /-- The request could not be sent, and the call leaves the table. -/
  | unsent {t : Nat} {seq next : UInt32} {mallocs waiters k : Nat}
      {pending : Hashmap (intKey h.word) Nat} {n₁ : Node h ω} {r : Int}
      (hbound : n.transportMap.get a.name = some t)
      (hseq : nextSeqLoop n.pending (2 ^ 32) n.nextSeq = some (seq, next))
      (hput : putEntry E n.pending seq n.calls.length k = (some pending, mallocs))
      (hsend : rpcSendRequestTlv E t seq a.name a.tlv ({ n with
        nextSeq := next, mallocs := mallocs, waiters := waiters, pending := pending } : Node h ω) =
          (r, n₁)) (hret : r < 0)
      (hserve : ({ n with
        nextSeq := next, mallocs := mallocs, waiters := waiters, pending := pending } : Node h ω).Serves
          n₁) :
      FirstSection E a n
        (({ n₁ with pending := (n₁.pending.remove seq).2 } : Node h ω).failCall a seq .transportError)
  /-- The request was sent. -/
  | sends {t : Nat} {seq next : UInt32} {mallocs waiters k : Nat}
      {pending : Hashmap (intKey h.word) Nat} {n₁ : Node h ω} {r : Int}
      (hbound : n.transportMap.get a.name = some t)
      (hseq : nextSeqLoop n.pending (2 ^ 32) n.nextSeq = some (seq, next))
      (hput : putEntry E n.pending seq n.calls.length k = (some pending, mallocs))
      (hsend : rpcSendRequestTlv E t seq a.name a.tlv ({ n with
        nextSeq := next, mallocs := mallocs, waiters := waiters, pending := pending } : Node h ω) =
          (r, n₁)) (hret : 0 ≤ r)
      (hserve : ({ n with
        nextSeq := next, mallocs := mallocs, waiters := waiters, pending := pending } : Node h ω).Serves
          n₁) :
      FirstSection E a n { n₁ with calls := n₁.calls ++ [a.toCall seq .sent] }

theorem rpcCallWithTlv_cases {a : CallArgs} {n n' : Node h ω}
    (hstep : rpcCallWithTlv E a n = some n') : FirstSection E a n n' := by
  unfold rpcCallWithTlv at hstep
  split at hstep
  · cases hstep
    exact .unbound
  · next t hbound =>
    split at hstep
    · cases hstep
    · obtain ⟨⟨seq, m⟩, hnext, rfl⟩ := Option.map_eq_some_iff.mp hstep
      obtain ⟨⟨s, next⟩, hseq, heq⟩ := Option.map_eq_some_iff.mp hnext
      cases heq
      dsimp only [Node.heapMalloc]
      split
      · exact .refused _ _ hseq
      · split
        · exact .refused _ _ hseq
        · split
          · exact .faults _ _ hseq
          · next hput =>
            split
            · next hret =>
              exact .unsent hbound hseq hput rfl hret (rpcSendRequestTlv_serves _ _ _ _ _)
            · next hret =>
              exact .sends hbound hseq hput rfl (Int.not_lt.mp hret) (rpcSendRequestTlv_serves _ _ _ _ _)

/-- The tables of methods and transports, the transports and the lock are the same. -/
structure Node.SameSetup (n n' : Node h ω) : Prop where
  methods : n'.methods = n.methods
  transportMap : n'.transportMap = n.transportMap
  transports : n'.transports = n.transports
  locked : n'.locked = n.locked

theorem FirstSection.setup {a : CallArgs} {n n' : Node h ω} (hcall : FirstSection E a n n') :
    n.SameSetup n' := by
  cases hcall with
  | unbound => exact ⟨rfl, rfl, rfl, rfl⟩
  | refused _ _ _ => exact ⟨rfl, rfl, rfl, rfl⟩
  | faults _ _ _ => exact ⟨rfl, rfl, rfl, rfl⟩
  | unsent _ _ _ _ _ hserve =>
    exact ⟨hserve.tables.methods, hserve.tables.transportMap, hserve.tables.transports,
      hserve.tables.locked⟩
  | sends _ _ _ _ _ hserve =>
    exact ⟨hserve.tables.methods, hserve.tables.transportMap, hserve.tables.transports,
      hserve.tables.locked⟩

theorem FirstSection.issues {a : CallArgs} {n n' : Node h ω} (hcall : FirstSection E a n n') :
    Issues n a n' := by
  cases hcall with
  | unbound => exact .fails rfl fun k => rfl
  | refused _ _ _ => exact .fails rfl fun k => rfl
  | faults _ _ _ => exact .fault rfl rfl rfl
  | @unsent t seq next mallocs waiters k pending n₁ r _ hseq hput _ _ hserve =>
    refine .fails (congrArg (· ++ _) hserve.calls) fun k => ?_
    change (n₁.pending.remove seq).2.get k = _
    rw [hserve.tables.pending, get_remove_int, get_putEntry_int hput]
    split
    · next hk => rw [← hk, nextSeqLoop_free hseq]
    · rfl
  | @sends t seq next mallocs waiters k pending n₁ r _ hseq hput _ _ hserve =>
    refine .sends (nextSeqLoop_free hseq) (congrArg (· ++ _) hserve.calls) fun k => ?_
    change n₁.pending.get k = _
    rw [hserve.tables.pending, get_putEntry_int hput]

theorem FirstSection.log {a : CallArgs} {n n' : Node h ω} (hcall : FirstSection E a n n') :
    ∃ l, n'.log = n.log ++ l ∧ Quiet l := by
  cases hcall with
  | unbound => exact ⟨[], (List.append_nil _).symm, quiet_nil⟩
  | refused _ _ _ => exact ⟨[], (List.append_nil _).symm, quiet_nil⟩
  | faults _ _ _ => exact ⟨[], (List.append_nil _).symm, quiet_nil⟩
  | unsent _ _ _ _ _ hserve => exact hserve.log
  | sends _ _ _ _ _ hserve => exact hserve.log

theorem rpcRegisterMethod_get {name x : Bytes} {m : MethodEntry ω} {n n' : Node h ω}
    (hstep : rpcRegisterMethod E name m n = some n') (hx : cstr name ≠ cstr x) :
    n'.methods.get x = n.methods.get x := by
  unfold rpcRegisterMethod at hstep
  dsimp only [Node.heapMalloc] at hstep
  split at hstep
  · cases hstep
    rfl
  · split at hstep
    · cases hstep
    · split at hstep
      · cases hstep
        rfl
      · next hput =>
        cases hstep
        exact (get_putEntry hput x).trans (if_neg (ne_true_of_eq_false (beq_eq_false_iff_ne.mpr hx)))

/-- A move of the thread of a call. -/
inductive Call.Turns : Nat → Action ω → Call → Call → Prop where
  | wait {c : Nat} {pc pc' : Call} (hw : pc.wait = some pc') : Turns c (.wait c) pc pc'
  | wake {c : Nat} {pc pc' : Call} (hw : pc.wake = some pc') : Turns c (.wake c) pc pc'
  | expire {c : Nat} {pc pc' : Call} (hw : pc.expire = some pc') : Turns c (.expire c) pc pc'

/-- What a step can do. -/
inductive Node.StepsTo (E : Env) (n : Node h ω) : Action ω → Node h ω → Prop where
  | registerMethod {name : Bytes} {m : MethodEntry ω}
      (methods : Hashmap (stringKey h.word) (MethodEntry ω)) (mallocs : Nat) (fault : Bool)
      (hget : ∀ x, cstr name ≠ cstr x → methods.get x = n.methods.get x) :
      StepsTo E n (.registerMethod name m)
        { n with methods := methods, mallocs := mallocs, fault := fault }
  | bindTransport {name : Bytes} {t : Nat} (map : Hashmap (stringKey h.word) Nat) (mallocs : Nat)
      (fault : Bool) :
      StepsTo E n (.bindTransport name t)
        { n with transportMap := map, mallocs := mallocs, fault := fault }
  | call {a : CallArgs} {n' : Node h ω} (hcall : FirstSection E a n n') : StepsTo E n (.call a) n'
  | thread {a : Action ω} {c : Nat} {pc pc' : Call} (hc : n.calls[c]? = some pc)
      (hturn : Call.Turns c a pc pc') : StepsTo E n a { n with calls := n.calls.set c pc' }
  | finish {c : Nat} {pc pc' : Call} (hc : n.calls[c]? = some pc) (hf : pc.finish = some pc') :
      StepsTo E n (.finish c)
        { n with pending := (n.pending.remove pc'.seq).2, calls := n.calls.set c pc' }
  | onData {t : Nat} {buf polled : Bytes} {n' : Node h ω} (hdata : n.onData E t buf polled = some n') :
      StepsTo E n (.onData t buf polled) n'

section Steps

variable {n n' : Node h ω} {a : Action ω}

theorem Node.step_cases (hstep : n.step E a = some n') : n.StepsTo E a n' := by
  unfold Node.step at hstep
  split at hstep
  · cases hstep
  · cases a with
    | registerMethod name m =>
      have hget : ∀ x, cstr name ≠ cstr x → n'.methods.get x = n.methods.get x :=
        fun x hx => rpcRegisterMethod_get hstep hx
      obtain ⟨_, _, _, rfl⟩ := rpcRegisterMethod_eq hstep
      exact .registerMethod _ _ _ hget
    | bindTransport name t =>
      obtain ⟨_, _, _, rfl⟩ := rpcBindTransport_eq hstep
      exact .bindTransport _ _ _
    | call a => exact .call (rpcCallWithTlv_cases hstep)
    | wait c =>
      obtain ⟨pc, pc', hc, hw, rfl⟩ := Node.stepCall_eq hstep
      exact .thread hc (.wait hw)
    | wake c =>
      obtain ⟨pc, pc', hc, hw, rfl⟩ := Node.stepCall_eq hstep
      exact .thread hc (.wake hw)
    | expire c =>
      obtain ⟨pc, pc', hc, hw, rfl⟩ := Node.stepCall_eq hstep
      exact .thread hc (.expire hw)
    | finish c =>
      obtain ⟨pc, pc', hc, hf, rfl⟩ := Node.finishCall_eq hstep
      exact .finish hc hf
    | onData t buf polled => exact .onData hstep

theorem Node.step_fault (hstep : n.step E a = some n') : n.fault = false := by
  unfold Node.step at hstep
  split at hstep
  · cases hstep
  · next hok => exact Bool.eq_false_iff.mpr hok

theorem Node.step_call_eq (hok : n.fault = false) (a : CallArgs) :
    n.step E (.call a) = rpcCallWithTlv E a n := by
  unfold Node.step
  rw [hok, if_neg Bool.false_ne_true]

theorem Node.step_onData_eq (hok : n.fault = false) (t : Nat) (buf polled : Bytes) :
    n.step E (.onData t buf polled) = n.onData E t buf polled := by
  unfold Node.step
  rw [hok, if_neg Bool.false_ne_true]

theorem Node.step_quiet (hstep : n.step E a = some n') (ha : ∀ t buf polled, a ≠ .onData t buf polled) :
    ∃ l, n'.log = n.log ++ l ∧ Quiet l := by
  have hsame : n.log = n.log ++ [] := (List.append_nil _).symm
  cases Node.step_cases hstep with
  | registerMethod _ _ _ _ => exact ⟨[], hsame, quiet_nil⟩
  | bindTransport _ _ _ => exact ⟨[], hsame, quiet_nil⟩
  | call hcall => exact hcall.log
  | thread _ _ => exact ⟨[], hsame, quiet_nil⟩
  | finish _ _ => exact ⟨[], hsame, quiet_nil⟩
  | onData _ => exact absurd rfl (ha _ _ _)

theorem Node.step_transports (hstep : n.step E a = some n')
    (ha : ∀ t buf polled, a ≠ .onData t buf polled) : n'.transports = n.transports := by
  cases Node.step_cases hstep with
  | registerMethod _ _ _ _ => rfl
  | bindTransport _ _ _ => rfl
  | call hcall => exact hcall.setup.transports
  | thread _ _ => rfl
  | finish _ _ => rfl
  | onData _ => exact absurd rfl (ha _ _ _)

theorem Node.step_methods {x : Bytes} (hstep : n.step E a = some n')
    (ha : ∀ t buf polled, a ≠ .onData t buf polled)
    (hx : ∀ name m, a = .registerMethod name m → cstr name ≠ cstr x) :
    n'.methods.get x = n.methods.get x := by
  cases Node.step_cases hstep with
  | registerMethod _ _ _ hget => exact hget x (hx _ _ rfl)
  | bindTransport _ _ _ => rfl
  | call hcall => rw [hcall.setup.methods]
  | thread _ _ => rfl
  | finish _ _ => rfl
  | onData _ => exact absurd rfl (ha _ _ _)

/-- What such a step may do to the call `c`. -/
inductive Call.Fares (c : Nat) : Action ω → Call → Call → Prop where
  | kept {a : Action ω} {pc : Call} : Fares c a pc pc
  | thread {a : Action ω} {pc pc' : Call} (hturn : Call.Turns c a pc pc') : Fares c a pc pc'
  | finish {pc pc' : Call} (hf : pc.finish = some pc') : Fares c (.finish c) pc pc'

theorem Node.step_call (hstep : n.step E a = some n') (ha : ∀ t buf polled, a ≠ .onData t buf polled)
    {c : Nat} {pc : Call} (hc : n.calls[c]? = some pc) :
    ∃ pc', n'.calls[c]? = some pc' ∧ Call.Fares c a pc pc' := by
  have hset : ∀ {d : Nat} {pd pd' : Call}, n.calls[d]? = some pd →
      (d = c → pd = pc → Call.Fares c a pc pd') →
        ∃ pc', (n.calls.set d pd')[c]? = some pc' ∧ Call.Fares c a pc pc' := by
    intro d pd pd' hd hfares
    rw [getElem?_set_call hd]
    by_cases hdc : d = c
    · subst hdc
      rw [hc] at hd
      exact ⟨pd', if_pos rfl, hfares rfl (Option.some.inj hd).symm⟩
    · exact ⟨pc, by rw [if_neg hdc, hc], .kept⟩
  have hlt : c < n.calls.length := (List.getElem?_eq_some_iff.mp hc).1
  cases Node.step_cases hstep with
  | registerMethod _ _ _ _ => exact ⟨pc, hc, .kept⟩
  | bindTransport _ _ _ => exact ⟨pc, hc, .kept⟩
  | call hcall =>
    refine ⟨pc, ?_, .kept⟩
    cases hcall.issues with
    | fault hfault hcs hp => rw [hcs, hc]
    | fails hcs hp => rw [hcs, List.getElem?_append_left hlt, hc]
    | sends hfree hcs hp => rw [hcs, List.getElem?_append_left hlt, hc]
  | thread hd hturn =>
    apply hset hd
    rintro hdc rfl
    subst hdc
    exact .thread hturn
  | finish hd hf =>
    apply hset hd
    rintro hdc rfl
    subst hdc
    exact .finish hf
  | onData _ => exact absurd rfl (ha _ _ _)

end Steps

end CcRpc
