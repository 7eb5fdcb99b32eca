import CcRpc.NodeFrames

/-!
# The calls of the port and of the allocators

The functions of a node once more, each with the calls it makes of `rpc_port_lock` and
`rpc_port_unlock` and with the memory it takes and gives back for itself, in order. Without that
record they are the functions of the node.
-/

namespace CcRpc

variable {h : Host} {ω : Type} (E : Env)

/-- What is allocated on the way through a call or a registration. -/
inductive Temporary where
  /-- `struct pending_call`. -/
  | pendingCall
  | waiter
  /-- `struct hashmap_entry`. -/
  | entry
  /-- `struct rpc_message`. -/
  | message
  /-- `struct rpc_method_entry`. -/
  | methodEntry
  /-- `struct rpc_transport_entry`. -/
  | transportEntry
  deriving DecidableEq, Repr

inductive PortCall where
  | lock
  | unlock
  /-- An allocation that succeeds. -/
  | alloc (what : Temporary)
  /-- An allocation that fails. -/
  | refused (what : Temporary)
  | release (what : Temporary)
  /-- A store through the NULL of a failed allocation. -/
  | nullStore
  deriving DecidableEq, Repr

/-- The calls of `hashmap_put`. -/
def putEntryCalls {κ ν : Type} {K : HashKey κ} (m : Hashmap K ν) (key : κ) (mallocs : Nat) :
    List PortCall :=
  if m.contains key then []
  else if E.heapMalloc mallocs then [.alloc .entry] else [.refused .entry, .nullStore]

/-- The calls of `hashmap_remove`. -/
def removeCalls {κ ν : Type} {K : HashKey κ} (m : Hashmap K ν) (key : κ) : List PortCall :=
  if (m.remove key).1 then [.release .entry] else []

/-- The calls of `rpc_send_request_tlv`; where it stores past the end of the message it does not get
to the release. -/
def rpcSendRequestTlvCalls (t : Nat) (seq : UInt32) (name tlv : Bytes) (n : Node h ω) :
    List PortCall :=
  if (n.transports t).hasSend then
    if E.heapMalloc n.mallocs then
      match requestMessage h seq name tlv with
      | some _ => [.alloc .message, .release .message]
      | none => [.alloc .message]
    else [.refused .message]
  else []

/-- `rpc_call_with_tlv` up to `rpc_waiter_wait`. -/
def rpcCallWithTlvTraced (a : CallArgs) (n : Node h ω) : Option (Node h ω × List PortCall) :=
  match n.transportMap.get a.name with
  | none => some (n.failCall a 0 .transportError, [])
  | some t =>
    if n.locked then none
    else
      (rpcNextSeq n).map fun (seq, n) =>
        let (ok, n) := n.heapMalloc E
        if !ok then (n.failCall a seq .internalError, [.lock, .refused .pendingCall, .unlock])
        else
          let (ok, n) := (E.waiterCreate n.waiters, { n with waiters := n.waiters + 1 })
          if !ok then
            (n.failCall a seq .internalError,
              [.lock, .alloc .pendingCall, .refused .waiter, .release .pendingCall, .unlock])
          else
            let calls := [.lock, .alloc .pendingCall, .alloc .waiter] ++
              putEntryCalls E n.pending seq n.mallocs
            match putEntry E n.pending seq n.calls.length n.mallocs with
            | (none, mallocs) => ({ n with mallocs := mallocs }.faulted, calls)
            | (some pending, mallocs) =>
              let n := { n with pending := pending, mallocs := mallocs }
              let calls := calls ++ rpcSendRequestTlvCalls E t seq a.name a.tlv n
              let (r, n) := rpcSendRequestTlv E t seq a.name a.tlv n
              if r < 0 then
                ({ n with pending := (n.pending.remove seq).2 }.failCall a seq .transportError,
                  calls ++ removeCalls n.pending seq ++
                    [.release .waiter, .release .pendingCall, .unlock])
              else ({ n with calls := n.calls ++ [a.toCall seq .sent] }, calls ++ [.unlock])

/-- The second locked section of `rpc_call_with_tlv`. -/
def Node.finishCallTraced (c : Nat) (n : Node h ω) : Option (Node h ω × List PortCall) :=
  if n.locked then none
  else
    n.calls[c]?.bind fun pc => pc.finish.map fun pc =>
      ({ n with pending := (n.pending.remove pc.seq).2, calls := n.calls.set c pc },
        [.lock] ++ removeCalls n.pending pc.seq ++ [.release .waiter, .release .pendingCall, .unlock])

def rpcRegisterMethodTraced (name : Bytes) (m : MethodEntry ω) (n : Node h ω) :
    Option (Node h ω × List PortCall) :=
  let (ok, n) := n.heapMalloc E
  if !ok then some (n, [.refused .methodEntry])
  else if n.locked then none
  else
    let calls := [.alloc .methodEntry, .lock] ++ putEntryCalls E n.methods name n.mallocs
    match putEntry E n.methods name m n.mallocs with
    | (none, mallocs) => some ({ n with mallocs := mallocs }.faulted, calls)
    | (some methods, mallocs) =>
      some ({ n with methods := methods, mallocs := mallocs }, calls ++ [.unlock])

def rpcBindTransportTraced (name : Bytes) (t : Nat) (n : Node h ω) :
    Option (Node h ω × List PortCall) :=
  let (ok, n) := n.heapMalloc E
  if !ok then some (n, [.refused .transportEntry])
  else if n.locked then none
  else
    let calls := [.alloc .transportEntry, .lock] ++ putEntryCalls E n.transportMap name n.mallocs
    match putEntry E n.transportMap name t n.mallocs with
    | (none, mallocs) => some ({ n with mallocs := mallocs }.faulted, calls)
    | (some transportMap, mallocs) =>
      some ({ n with transportMap := transportMap, mallocs := mallocs }, calls ++ [.unlock])

/-- The same ports, with a record of the calls of the lock. -/
def Ports.lockTraced {σ : Type} (P : Ports σ) : Ports (σ × List PortCall) where
  rpcPortLock x := (P.rpcPortLock x.1, x.2 ++ [.lock])
  rpcPortUnlock x := (P.rpcPortUnlock x.1, x.2 ++ [.unlock])
  heapMalloc n x := ((P.heapMalloc n x.1).1, (P.heapMalloc n x.1).2, x.2)
  recv := P.recv.map fun recv x => ((recv x.1).1, (recv x.1).2, x.2)
  dispatch msg len x := (P.dispatch msg len x.1, x.2)

def Node.onDataTraced (t : Nat) (buf polled : Bytes) (n : Node h ω) :
    Option (Node h ω × List PortCall) :=
  let tr := n.transports t
  if tr.hasRecv && n.locked then none
  else
    (rpcOnData h (Node.ports E t tr.hasRecv polled).lockTraced buf tr.reasm (n, [])).map
      fun (r, n, calls) => (n.setReasm t r, calls)

/-- A step with its calls. -/
def Node.stepTraced (n : Node h ω) (a : Action ω) : Option (Node h ω × List PortCall) :=
  if n.fault then none
  else
    match a with
    | .registerMethod name m => rpcRegisterMethodTraced E name m n
    | .bindTransport name t => rpcBindTransportTraced E name t n
    | .call a => rpcCallWithTlvTraced E a n
    | .wait c => (n.stepCall Call.wait c).map fun n => (n, [])
    | .wake c => (n.stepCall Call.wake c).map fun n => (n, [])
    | .expire c => (n.stepCall Call.expire c).map fun n => (n, [])
    | .finish c => n.finishCallTraced c
    | .onData t buf polled => n.onDataTraced E t buf polled

theorem rpcCallWithTlvTraced_fst (a : CallArgs) (n : Node h ω) :
    (rpcCallWithTlvTraced E a n).map Prod.fst = rpcCallWithTlv E a n := by
  unfold rpcCallWithTlvTraced rpcCallWithTlv
  cases n.transportMap.get a.name with
  | none => rfl
  | some t =>
    dsimp only
    split
    · rfl
    · rw [Option.map_map]
      refine congrArg (Option.map · (rpcNextSeq n)) (funext fun x => ?_)
      obtain ⟨seq, m⟩ := x
      change Prod.fst _ = _
      dsimp only
      generalize m.heapMalloc E = x
      obtain ⟨ok, m⟩ := x
      cases ok with
      | false => rfl
      | true =>
        dsimp only
        generalize E.waiterCreate m.waiters = ok
        cases ok with
        | false => rfl
        | true =>
          have hok : ¬ (!true) = true := by decide
          rw [if_neg hok, if_neg hok, if_neg hok, if_neg hok]
          generalize putEntry E m.pending seq m.calls.length m.mallocs = x
          obtain ⟨pending, mallocs⟩ := x
          cases pending with
          | none => rfl
          | some pending =>
            dsimp only
            split <;> rfl

theorem Node.finishCallTraced_fst (c : Nat) (n : Node h ω) :
    (n.finishCallTraced c).map Prod.fst = n.finishCall c := by
  unfold Node.finishCallTraced Node.finishCall
  split
  · rfl
  · cases n.calls[c]? with
    | none => rfl
    | some pc =>
      rw [Option.bind_some, Option.bind_some, Option.map_map]
      rfl

theorem rpcRegisterMethodTraced_fst (name : Bytes) (m : MethodEntry ω) (n : Node h ω) :
    (rpcRegisterMethodTraced E name m n).map Prod.fst = rpcRegisterMethod E name m n := by
  unfold rpcRegisterMethodTraced rpcRegisterMethod
  generalize n.heapMalloc E = x
  obtain ⟨ok, n⟩ := x
  cases ok with
  | false => rfl
  | true =>
    have hok : ¬ (!true) = true := by decide
    dsimp only
    rw [if_neg hok, if_neg hok]
    split
    · rfl
    · generalize putEntry E n.methods name m n.mallocs = x
      obtain ⟨methods, mallocs⟩ := x
      cases methods <;> rfl

theorem rpcBindTransportTraced_fst (name : Bytes) (t : Nat) (n : Node h ω) :
    (rpcBindTransportTraced E name t n).map Prod.fst = rpcBindTransport E name t n := by
  unfold rpcBindTransportTraced rpcBindTransport
  generalize n.heapMalloc E = x
  obtain ⟨ok, n⟩ := x
  cases ok with
  | false => rfl
  | true =>
    have hok : ¬ (!true) = true := by decide
    dsimp only
    rw [if_neg hok, if_neg hok]
    split
    · rfl
    · generalize putEntry E n.transportMap name t n.mallocs = x
      obtain ⟨transportMap, mallocs⟩ := x
      cases transportMap <;> rfl

section OnData

variable {σ : Type} {P : Ports σ}

private theorem onDataLoop_lockTraced (fuel : Nat) (r : Reasm) (s : σ) (calls : List PortCall) :
    onDataLoop h P.lockTraced fuel r (s, calls) =
      (onDataLoop h P fuel r s).map fun (r, s) => (r, s, calls) := by
  induction fuel generalizing r s with
  | zero => rfl
  | succ fuel ih =>
    rw [onDataLoop, onDataLoop]
    by_cases hshort : r.totalLen < sizeofRpcHeader
    · rw [if_pos hshort, if_pos hshort]
      rfl
    · rw [if_neg hshort, if_neg hshort]
      cases rpcReasmPeekHeader r with
      | none => rfl
      | some hdr =>
        dsimp only
        split
        · rfl
        · rw [← ih]
          unfold Ports.lockTraced
          dsimp only
          split <;> rfl

/-- `rpc_on_data` takes the lock once, and gives it back unless it returns for want of data. -/
theorem rpcOnData_lockTraced (buf : Bytes) (r : Reasm) (s : σ) (calls : List PortCall) :
    rpcOnData h P.lockTraced buf r (s, calls) =
      (rpcOnData h P buf r s).map fun (r', s') => (r', s', calls ++
        match P.recv with
        | none => []
        | some recv =>
          if buf = [] ∧ (recv (P.rpcPortLock s)).1 = [] then [.lock] else [.lock, .unlock]) := by
  unfold rpcOnData
  cases hrecv : P.recv with
  | none =>
    simp only [Ports.lockTraced, hrecv, Option.map_none, Option.map_some, List.append_nil]
  | some recv =>
    have hrecv' : P.lockTraced.recv = some fun x => ((recv x.1).1, (recv x.1).2, x.2) := by
      unfold Ports.lockTraced
      dsimp only
      rw [hrecv]
      rfl
    rw [hrecv']
    dsimp only
    have hread : (if 0 < buf.length then (buf, P.lockTraced.rpcPortLock (s, calls))
        else ((recv (P.lockTraced.rpcPortLock (s, calls)).1).1,
          (recv (P.lockTraced.rpcPortLock (s, calls)).1).2, (P.lockTraced.rpcPortLock (s, calls)).2)) =
        ((if 0 < buf.length then (buf, P.rpcPortLock s) else recv (P.rpcPortLock s)).1,
          (if 0 < buf.length then (buf, P.rpcPortLock s) else recv (P.rpcPortLock s)).2,
          calls ++ [.lock]) := by
      split <;> rfl
    rw [hread]
    have hempty : buf = [] ∧ (recv (P.rpcPortLock s)).1 = [] ↔
        (if 0 < buf.length then (buf, P.rpcPortLock s) else recv (P.rpcPortLock s)).1.length = 0 := by
      split
      · next hpos =>
        constructor
        · intro hb
          rw [hb.1]
          rfl
        · intro hz
          dsimp only at hz
          omega
      · next hnil =>
        rw [List.length_eq_zero_iff]
        exact and_iff_right (List.length_eq_zero_iff.mp (by omega))
    generalize (if 0 < buf.length then (buf, P.rpcPortLock s) else recv (P.rpcPortLock s)) = x at hempty
    obtain ⟨data, s₀⟩ := x
    dsimp only at hempty ⊢
    by_cases hz : data.length = 0
    · rw [if_pos hz, if_pos hz, if_pos (hempty.mpr hz)]
      rfl
    · rw [if_neg hz, if_neg hz, if_neg (fun hb => hz (hempty.mp hb))]
      have happend : rpcReasmAppend h P.lockTraced r data (s₀, calls ++ [.lock]) =
          ((rpcReasmAppend h P r data s₀).1, (rpcReasmAppend h P r data s₀).2, calls ++ [.lock]) := by
        unfold rpcReasmAppend Ports.lockTraced
        split
        · dsimp only
          split <;> rfl
        · rfl
      rw [happend]
      dsimp only
      rw [onDataLoop_lockTraced, Option.map_map, Option.map_map]
      refine congrArg (Option.map · _) (funext fun y => ?_)
      simp only [Function.comp_apply, Ports.lockTraced, List.append_assoc, List.cons_append,
        List.nil_append]

end OnData

theorem Node.onDataTraced_fst (t : Nat) (buf polled : Bytes) (n : Node h ω) :
    (n.onDataTraced E t buf polled).map Prod.fst = n.onData E t buf polled := by
  unfold Node.onDataTraced Node.onData
  dsimp only
  split
  · rfl
  · rw [rpcOnData_lockTraced, Option.map_map, Option.map_map]
    rfl

theorem Node.stepTraced_fst (n : Node h ω) (a : Action ω) :
    (n.stepTraced E a).map Prod.fst = n.step E a := by
  have hquiet : ∀ x : Option (Node h ω),
      (x.map fun n => (n, ([] : List PortCall))).map Prod.fst = x := by
    intro x
    cases x <;> rfl
  unfold Node.stepTraced Node.step
  split
  · rfl
  · cases a with
    | registerMethod name m => exact rpcRegisterMethodTraced_fst E name m n
    | bindTransport name t => exact rpcBindTransportTraced_fst E name t n
    | call a => exact rpcCallWithTlvTraced_fst E a n
    | wait c => exact hquiet _
    | wake c => exact hquiet _
    | expire c => exact hquiet _
    | finish c => exact n.finishCallTraced_fst c
    | onData t buf polled => exact n.onDataTraced_fst E t buf polled

end CcRpc
