import CcRpc.LockBalance

/-!
# Calls that fail

`rpc_call_with_tlv` returns a negative status from its first locked section only. On each of these
ways out the pending table is as it was, and what the call took it has given back. The allocation in
`hashmap_put` is not looked at, and it alone is stored through when it fails.
-/

namespace CcRpc

variable {h : Host} {ω : Type} {E : Env}

/-- What the call has returned, if it has. -/
def Phase.result : Phase → Option Int
  | .failed status | .returned _ status => some status
  | .sent | .blocked | .woken | .expired => none

/-- Every temporary taken was given back, and none was taken twice. -/
def GivesBack (calls : List PortCall) : Prop :=
  ∀ what, calls.count (.release what) = calls.count (.alloc what) ∧ calls.count (.alloc what) ≤ 1

/-- A call from the state `n` that fails leaves no trace. The call's place among the calls of the node
is `n.calls.length`. -/
structure LeavesNoTrace (E : Env) (a : CallArgs) (n : Node h ω) : Prop where
  /-- The first section stores nothing through a failed allocation. -/
  noNull : ∀ n' calls, rpcCallWithTlvTraced E a n = some (n', calls) → .nullStore ∉ calls
  /-- What it does when it returns a negative status. -/
  cleanedUp : ∀ n' calls, rpcCallWithTlvTraced E a n = some (n', calls) → n'.fault = false →
    ∀ pc status, n'.calls[n.calls.length]? = some pc → pc.phase.result = some status → status < 0 →
      n'.pending = n.pending ∧ GivesBack calls ∧ n'.calls = n.calls ++ [pc]
  /-- The second section returns no negative status. -/
  later : ∀ (m m' : Node h ω) calls, m.finishCallTraced n.calls.length = some (m', calls) →
    ∀ pc status, m'.calls[n.calls.length]? = some pc → pc.phase.result = some status → 0 ≤ status

/-- The call gets as far as `hashmap_put`, and the allocation there fails. -/
def EntryRefused (E : Env) (a : CallArgs) (n : Node h ω) : Prop :=
  (n.transportMap.get a.name).isSome ∧ n.locked = false ∧ (rpcNextSeq n).isSome ∧
    E.heapMalloc n.mallocs = true ∧ E.waiterCreate n.waiters = true ∧
      E.heapMalloc (n.mallocs + 1) = false

/-- A call whose entry is refused stores through NULL, and no other does. A call that returns an error
puts the tables back and gives back what it took. -/
inductive Ends (E : Env) (a : CallArgs) (n n' : Node h ω) (calls : List PortCall) : Prop where
  | refused (hentry : EntryRefused E a n) (hnull : .nullStore ∈ calls)
  | failed {seq : UInt32} {status : Int} (hentry : ¬ EntryRefused E a n) (hnull : .nullStore ∉ calls)
      (hcalls : n'.calls = n.calls ++ [a.toCall seq (.failed status)])
      (hclean : n'.fault = false → n'.pending = n.pending ∧ GivesBack calls)
  | sent {seq : UInt32} (hentry : ¬ EntryRefused E a n) (hnull : .nullStore ∉ calls)
      (hcalls : n'.calls = n.calls ++ [a.toCall seq .sent])

/-- What the send takes it gives back, unless it runs past the end of the message. -/
theorem rpcSendRequestTlvCalls_spec (t : Nat) (seq : UInt32) (name tlv : Bytes) (n : Node h ω) :
    .nullStore ∉ rpcSendRequestTlvCalls E t seq name tlv n ∧
      ((rpcSendRequestTlv E t seq name tlv n).2.fault = false →
        rpcSendRequestTlvCalls E t seq name tlv n ∈
          [[], [.refused .message], [.alloc .message, .release .message]]) := by
  unfold rpcSendRequestTlvCalls rpcSendRequestTlv
  by_cases hsend : (n.transports t).hasSend = true
  · rw [if_pos hsend, if_pos hsend]
    dsimp only [Node.heapMalloc]
    by_cases hmalloc : E.heapMalloc n.mallocs = true
    · rw [if_pos hmalloc, if_pos hmalloc]
      cases requestMessage h seq name tlv with
      | none =>
        constructor
        · decide
        · intro hfault
          cases hfault
      | some msg =>
        dsimp only
        exact ⟨by decide, fun _ => by decide⟩
    · rw [if_neg hmalloc]
      exact ⟨by decide, fun _ => by decide⟩
  · rw [if_neg hsend]
    exact ⟨by decide, fun _ => by decide⟩

theorem removeCalls_noNull {κ ν : Type} {K : HashKey κ} (m : Hashmap K ν) (key : κ) :
    .nullStore ∉ removeCalls m key := by
  unfold removeCalls
  split <;> decide

theorem givesBack_of_send {sendCalls : List PortCall}
    (hsend : sendCalls ∈ [[], [.refused .message], [.alloc .message, .release .message]]) :
    GivesBack ([.lock, .alloc .pendingCall, .alloc .waiter] ++ [.alloc .entry] ++ sendCalls ++
      [.release .entry] ++ [.release .waiter, .release .pendingCall, .unlock]) := by
  intro what
  rcases List.mem_cons.mp hsend with rfl | hsend
  · cases what <;> decide
  · rcases List.mem_cons.mp hsend with rfl | hsend
    · cases what <;> decide
    · rw [List.mem_singleton.mp hsend]
      cases what <;> decide

theorem putEntry_new {κ ν : Type} {K : HashKey κ} {m : Hashmap K ν} {key : κ} (hnew : m.get key = none)
    (value : ν) (mallocs : Nat) :
    putEntry E m key value mallocs = (m.put (E.heapMalloc mallocs) key value, mallocs + 1) ∧
      putEntryCalls E m key mallocs =
        if E.heapMalloc mallocs then [.alloc .entry] else [.refused .entry, .nullStore] := by
  have hcontains : ¬ m.contains key = true := by
    rw [Hashmap.contains, hnew]
    exact Bool.false_ne_true
  rw [putEntry, putEntryCalls, if_neg hcontains, if_neg hcontains]
  exact ⟨rfl, rfl⟩

theorem rpcCallWithTlvTraced_ends {a : CallArgs} {n n' : Node h ω} {calls : List PortCall}
    (hstep : rpcCallWithTlvTraced E a n = some (n', calls)) : Ends E a n n' calls := by
  unfold rpcCallWithTlvTraced at hstep
  split at hstep
  · next hnone =>
    cases hstep
    apply Ends.failed _ (by decide) rfl
    · intro hf
      exact ⟨rfl, by intro what; cases what <;> decide⟩
    · intro hentry
      have := hentry.1
      simp [hnone] at this
  · next t ht =>
    split at hstep
    · cases hstep
    · next hlocked =>
      obtain ⟨⟨seq, m⟩, hseq, heq⟩ := Option.map_eq_some_iff.mp hstep
      obtain ⟨⟨s, next⟩, hloop, hm⟩ := Option.map_eq_some_iff.mp hseq
      cases hm
      have hfree := nextSeqLoop_free hloop
      dsimp only [Node.heapMalloc] at heq
      split at heq
      · next hpc =>
        cases heq
        apply Ends.failed _ (by decide) rfl
        · intro hf
          exact ⟨rfl, by intro what; cases what <;> decide⟩
        · intro hentry
          simp [hentry.2.2.2.1] at hpc
      · next hpc =>
        split at heq
        · next hwaiter =>
          cases heq
          apply Ends.failed _ (by decide) rfl
          · intro hf
            exact ⟨rfl, by intro what; cases what <;> decide⟩
          · intro hentry
            simp [hentry.2.2.2.2.1] at hwaiter
        · next hwaiter =>
          have hentry : EntryRefused E a n ↔ E.heapMalloc (n.mallocs + 1) = false := by
            simp_all [EntryRefused, rpcNextSeq]
          obtain ⟨hput, hputCalls⟩ := putEntry_new (E := E) hfree n.calls.length (n.mallocs + 1)
          rw [hput, hputCalls] at heq
          cases hmalloc : E.heapMalloc (n.mallocs + 1) with
          | false =>
            rw [hmalloc, Hashmap.put_false hfree] at heq
            cases heq
            exact .refused (hentry.mpr hmalloc) (by decide)
          | true =>
            rw [hmalloc] at hentry heq
            have hgranted : ¬ EntryRefused E a n := fun hr => by cases hentry.mp hr
            obtain ⟨pending, hpending⟩ := n.pending.put_true seq n.calls.length
            obtain ⟨hremoved, hrestored⟩ := Hashmap.remove_put hpending hfree
            rw [hpending] at heq
            dsimp only at heq
            generalize hx : rpcSendRequestTlv E t seq a.name a.tlv _ = x at heq
            have hserve := rpcSendRequestTlv_serves (E := E) t seq a.name a.tlv
              ({ n with nextSeq := next, mallocs := n.mallocs + 1 + 1, waiters := n.waiters + 1,
                        pending := pending } : Node h ω)
            obtain ⟨hsendNull, hsendCalls⟩ := rpcSendRequestTlvCalls_spec (E := E) t seq a.name a.tlv
              ({ n with nextSeq := next, mallocs := n.mallocs + 1 + 1, waiters := n.waiters + 1,
                        pending := pending } : Node h ω)
            rw [hx] at hserve hsendCalls
            have hsame : x.2.pending = pending := hserve.tables.pending
            split at heq
            · cases heq
              apply Ends.failed hgranted _ (congrArg (· ++ _) hserve.calls)
              · intro hfault
                refine ⟨?_, ?_⟩
                · change (x.2.pending.remove seq).2 = n.pending
                  rw [hsame]
                  exact hrestored
                · rw [hsame, removeCalls, if_pos hremoved]
                  exact givesBack_of_send (hsendCalls hfault)
              · simp [removeCalls_noNull, hsendNull]
            · cases heq
              apply Ends.sent hgranted _ (congrArg (· ++ _) hserve.calls)
              simp [hsendNull]

theorem Call.finish_nonneg {pc pc' : Call} (hfinish : pc.finish = some pc') {status : Int}
    (hresult : pc'.phase.result = some status) : 0 ≤ status := by
  have hreturn : ∀ waitRet, (pc.return waitRet).phase.result = some status → 0 ≤ status := by
    intro waitRet hres
    unfold Call.return Phase.result at hres
    dsimp only at hres
    cases hres
    split <;> exact Int.natCast_nonneg _
  rcases Call.finish_spec hfinish with ⟨-, rfl⟩ | ⟨-, rfl⟩
  · exact hreturn 0 hresult
  · exact hreturn (-1) hresult

theorem Node.finishCallTraced_nonneg {c : Nat} {m m' : Node h ω} {calls : List PortCall}
    (hstep : m.finishCallTraced c = some (m', calls)) {pc : Call} {status : Int}
    (hpc : m'.calls[c]? = some pc) (hresult : pc.phase.result = some status) : 0 ≤ status := by
  unfold Node.finishCallTraced at hstep
  split at hstep
  · cases hstep
  · obtain ⟨pc₀, hpc₀, hstep⟩ := Option.bind_eq_some_iff.mp hstep
    obtain ⟨pc', hfinish, heq⟩ := Option.map_eq_some_iff.mp hstep
    cases heq
    have hc : c < m.calls.length := (List.getElem?_eq_some_iff.mp hpc₀).1
    rw [List.getElem?_set_self hc] at hpc
    cases hpc
    exact Call.finish_nonneg hfinish hresult

instance (E : Env) (a : CallArgs) (n : Node h ω) : Decidable (EntryRefused E a n) := by
  unfold EntryRefused
  infer_instance

theorem rpcCallWithTlvTraced_isSome {a : CallArgs} {n : Node h ω}
    (htransport : (n.transportMap.get a.name).isSome) (hlocked : n.locked = false)
    (hseq : (rpcNextSeq n).isSome) : (rpcCallWithTlvTraced E a n).isSome := by
  obtain ⟨t, ht⟩ := Option.isSome_iff_exists.mp htransport
  have hfree : ¬ n.locked = true := by
    rw [hlocked]
    decide
  unfold rpcCallWithTlvTraced
  rw [ht]
  dsimp only
  rw [if_neg hfree, Option.isSome_map]
  exact hseq

theorem not_leavesNoTrace {a : CallArgs} {n : Node h ω} (hentry : EntryRefused E a n) :
    ¬ LeavesNoTrace E a n := by
  intro hclean
  obtain ⟨⟨n', calls⟩, hstep⟩ := Option.isSome_iff_exists.mp
    (rpcCallWithTlvTraced_isSome (E := E) hentry.1 hentry.2.1 hentry.2.2.1)
  cases rpcCallWithTlvTraced_ends hstep with
  | refused _ hnull => exact hclean.noNull n' calls hstep hnull
  | failed hno => exact hno hentry
  | sent hno => exact hno hentry

/-- A call leaves no trace of a failure if and only if the entry of the pending table is not refused. -/
theorem leavesNoTrace_iff (E : Env) (a : CallArgs) (n : Node h ω) :
    LeavesNoTrace E a n ↔ ¬ EntryRefused E a n := by
  constructor
  · intro hclean hentry
    exact not_leavesNoTrace hentry hclean
  · intro hno
    constructor
    · intro n' calls hstep
      cases rpcCallWithTlvTraced_ends hstep with
      | refused hentry => exact absurd hentry hno
      | failed _ hnull => exact hnull
      | sent _ hnull => exact hnull
    · intro n' calls hstep hfault pc status hpc hresult hneg
      cases rpcCallWithTlvTraced_ends hstep with
      | refused hentry => exact absurd hentry hno
      | failed _ _ hcalls hclean =>
        obtain ⟨hpending, hgives⟩ := hclean hfault
        rw [hcalls, List.getElem?_concat_length] at hpc
        cases hpc
        exact ⟨hpending, hgives, hcalls⟩
      | sent _ _ hcalls =>
        rw [hcalls, List.getElem?_concat_length] at hpc
        cases hpc
        cases hresult
    · intro m m' calls hstep pc status hpc hresult
      exact m.finishCallTraced_nonneg hstep hpc hresult

/-- Surroundings that refuse the fourth `heap_malloc`. -/
def Env.refusingEntry : Env where
  heapMalloc k := k != 3
  waiterCreate _ := true
  send _ msg := msg.length

/-- A call of the method `e`. -/
def smallCall : CallArgs := ⟨[0x65], [], none, none, by intro b l hb; cases hb⟩

/-- On a node with one transport, a call whose entry is refused stores through NULL. -/
theorem refusedEntry_traced :
    ∃ n, Runs.run (Node.step Env.refusingEntry) freshNode [.bindTransport [0x65] 0] = some n ∧
      ¬ LeavesNoTrace Env.refusingEntry smallCall n := by
  have heval : (Runs.run (Node.step Env.refusingEntry) freshNode [.bindTransport [0x65] 0]).map
      (fun n => decide (EntryRefused Env.refusingEntry smallCall n)) = some true := by
    decide +kernel
  obtain ⟨n, hrun, hentry⟩ := Option.map_eq_some_iff.mp heval
  exact ⟨n, hrun, not_leavesNoTrace (of_decide_eq_true hentry)⟩

end CcRpc
