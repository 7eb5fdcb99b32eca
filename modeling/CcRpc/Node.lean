import CcRpc.Hashmap
import CcRpc.OnData
import CcRpc.Services

/-!
# A node (`rpc.c`, `rpc_port.c`)

The state of one process: its method, pending and transport tables, the calls its threads are in,
and what it has done so far. The sections under the port lock are functions on this state, and a
call of `rpc_call_with_tlv` is two of them with the waiter in between. What the surroundings answer
(the allocators, the transports, the handlers) is a parameter.
-/

namespace CcRpc

/-- What the surroundings answer to each request in turn. -/
structure Env where
  /-- Whether the `k`-th `heap_malloc` returns memory. -/
  heapMalloc : Nat → Bool
  /-- Whether the `k`-th `malloc` in `rpc_waiter_create` does. -/
  waiterCreate : Nat → Bool
  /-- What the `k`-th `send` of a message returns. -/
  send : Nat → Bytes → Nat

/-- `struct rpc_method_entry`. The parser is told which of its allocations succeed; `none` from a
callback is undefined behaviour. The two `free` callbacks act on the world of the handlers. -/
structure MethodEntry (ω : Type) where
  params : Schema
  results : Schema
  parseParam : Option ((Nat → Bool) → Bytes → Nat → Option (Int × Struct params))
  handler : Option (Struct params → Struct results → ω → Int × Struct results × ω)
  encodeResult : Option (Struct results → Bytes → Nat → Option (Int × Bytes × Nat))
  freeParam : Option (Struct params → ω → ω)
  freeResult : Option (Struct results → ω → ω)

/-- The structs of the callbacks lie inside `param_buf` and `result_buf`. -/
def MethodEntry.Fits (w : WordSize) (m : MethodEntry ω) : Prop :=
  m.params.sizeof w ≤ rpcMaxParamSize ∧ m.results.sizeof w ≤ rpcMaxResultSize

instance MethodEntry.decidableFits (w : WordSize) (m : MethodEntry ω) : Decidable (m.Fits w) :=
  inferInstanceAs (Decidable (_ ∧ _))

/-- `struct rpc_transport_class`. -/
structure Transport where
  hasSend : Bool
  hasRecv : Bool
  reasm : Reasm

/-- Where the thread of a call is. -/
inductive Phase where
  /-- Returned from the first locked section, with an error. -/
  | failed (status : Int)
  /-- Past the first locked section. -/
  | sent
  /-- In `pthread_cond_timedwait`. -/
  | blocked
  /-- `rpc_waiter_wait` returned 0. -/
  | woken
  /-- `rpc_waiter_wait` returned -1. -/
  | expired
  /-- Returned from the second locked section. -/
  | returned (waitRet status : Int)
  deriving DecidableEq, Repr

/-- Issued and not yet returned. -/
def Phase.InFlight : Phase → Prop
  | .sent | .blocked | .woken | .expired => True
  | .failed _ | .returned _ _ => False

instance (p : Phase) : Decidable p.InFlight := by
  cases p <;> unfold Phase.InFlight <;> infer_instance

/-- A call of `rpc_call_with_tlv`: its `struct pending_call`, its waiter, the caller's `out_tlv` and
`*out_len`, and its thread. -/
structure Call where
  seq : UInt32
  /-- `out_tlv`, which `pc->buf` points to. -/
  buf : Option Bytes
  bufSize : Nat
  /-- `*out_len`. -/
  outLen : Option Nat
  respLen : Nat
  status : UInt16
  done : Bool
  signaled : Bool
  phase : Phase
  /-- The caller's buffer is as large as it said. -/
  room : ∀ b, buf = some b → bufSize ≤ b.length

/-- The arguments of `rpc_call_with_tlv` but the timeout; `out_tlv` has `*out_len` bytes. -/
structure CallArgs where
  name : Bytes
  tlv : Bytes
  outTlv : Option Bytes
  outLen : Option Nat
  room : ∀ b l, outTlv = some b → outLen = some l → l ≤ b.length

/-- What a node did, in order. -/
inductive Event where
  /-- `rpc_dispatch_message(t, msg, len)` was called. -/
  | dispatched (t : Nat) (msg : Bytes) (len : Nat)
  /-- The handler registered under a name ran. -/
  | ran (name : Bytes) (param : (s : Schema) × Struct s)
  /-- `t->send` was called, and what it returned. -/
  | sent (t : Nat) (msg : Bytes) (ret : Nat)

/-- The static data of `rpc.c`, the port lock, the transports, the calls and the handlers' world. -/
structure Node (h : Host) (ω : Type) where
  methods : Hashmap (stringKey h.word) (MethodEntry ω)
  nextSeq : UInt32
  pending : Hashmap (intKey h.word) Nat
  transportMap : Hashmap (stringKey h.word) Nat
  method : Bytes
  respTlv : Bytes
  transports : Nat → Transport
  calls : List Call
  world : ω
  locked : Bool
  mallocs : Nat
  waiters : Nat
  sends : Nat
  log : List Event
  /-- Undefined behaviour has happened. -/
  fault : Bool

variable {h : Host} {ω : Type}

/-- After `rpc_init`, with transports that have received nothing. -/
def Node.initial (h : Host) (methodCap pendingCap transportCap : UInt8)
    (hasSend hasRecv : Nat → Bool) (world : ω) : Node h ω where
  methods := Hashmap.init _ _ methodCap.toNat
  nextSeq := 1
  pending := Hashmap.init _ _ pendingCap.toNat
  transportMap := Hashmap.init _ _ transportCap.toNat
  method := List.replicate CcRpc.methodCap 0
  respTlv := List.replicate rpcMaxResultTlvSize 0
  transports t := ⟨hasSend t, hasRecv t, Reasm.empty⟩
  calls := []
  world := world
  locked := false
  mallocs := 0
  waiters := 0
  sends := 0
  log := []
  fault := false

namespace Node

def record (n : Node h ω) (e : Event) : Node h ω := { n with log := n.log ++ [e] }

def faulted (n : Node h ω) : Node h ω := { n with fault := true }

def heapMalloc (E : Env) (n : Node h ω) : Bool × Node h ω :=
  (E.heapMalloc n.mallocs, { n with mallocs := n.mallocs + 1 })

end Node

/-- `(int)` of a `size_t`. -/
def intOfSizeT (v : Nat) : Int := (BitVec.ofNat 32 v).toInt

variable (E : Env)

/-- `(int)t->send(t->user, msg, total)`. -/
def Node.send (t : Nat) (msg : Bytes) (n : Node h ω) : Int × Node h ω :=
  let ret := E.send n.sends msg
  (intOfSizeT ret, { n with sends := n.sends + 1 }.record (.sent t msg ret))

def rpcSendResponseTlv (t : Nat) (seq : UInt32) (status : RpcStatus) (tlv : Option Bytes)
    (tlvLen : Nat) (n : Node h ω) : Int × Node h ω :=
  if (n.transports t).hasSend then
    let (ok, n) := n.heapMalloc E
    if ok then
      match responseMessage h seq status.code tlv tlvLen with
      | some msg => n.send E t msg
      | none => (-1, n.faulted)
    else (-1, n)
  else (-1, n)

/-- `memcpy(method, payload, method_len); method[method_len] = '\0'`. -/
def Node.storeMethod (name : Bytes) (n : Node h ω) : Node h ω :=
  { n with method := name ++ 0 :: n.method.drop (name.length + 1) }

/-- `rpc_handle_request`: the parser fills `param_buf`, which was cleared. The accesses of the
callbacks to a struct that does not lie inside its static buffer are undefined. -/
def runParser (m : MethodEntry ω) (req : Request) (n : Node h ω) :
    Option (RpcStatus × Struct m.params) × Node h ω :=
  if m.Fits h.word then
    match m.parseParam with
    | none => (some (.ok, Struct.zero m.params), n)
    | some parse =>
      let parsed := parse (fun i => E.heapMalloc (n.mallocs + i)) req.tlv req.tlvLen
      (parsed.map fun (rc, param) => (if rc ≠ 0 then .invalidParams else .ok, param),
        { n with mallocs := n.mallocs + m.params.length })
  else (none, n)

/-- `rpc_handle_request`: the handler fills `result_buf`, which was cleared. -/
def runHandler (m : MethodEntry ω) (status : RpcStatus) (param : Struct m.params) (n : Node h ω) :
    RpcStatus × Struct m.results × Node h ω :=
  match m.handler with
  | none => (status, Struct.zero m.results, n)
  | some handler =>
    if status = .ok then
      let (rc, result, world) := handler param (Struct.zero m.results) n.world
      (if rc ≠ 0 then .internalError else .ok, result,
        { n with world := world }.record (.ran (cstr n.method) ⟨m.params, param⟩))
    else (status, Struct.zero m.results, n)

/-- `rpc_handle_request`: the encoder fills `resp_tlv`, which was cleared; the status and
`resp_len` after it. -/
def runEncoder (m : MethodEntry ω) (status : RpcStatus) (result : Struct m.results)
    (n : Node h ω) : Option (RpcStatus × Nat) × Node h ω :=
  let n := { n with respTlv := List.replicate rpcMaxResultTlvSize 0 }
  match m.encodeResult with
  | none => (some (status, rpcMaxResultTlvSize), n)
  | some encode =>
    if status = .ok then
      match encode result n.respTlv rpcMaxResultTlvSize with
      | none => (none, n)
      | some (rc, buf, respLen) =>
        (some (if rc ≠ 0 then (.internalError, 0) else (.ok, respLen)), { n with respTlv := buf })
    else (some (status, rpcMaxResultTlvSize), n)

/-- The end of `rpc_handle_request`. -/
def freeBuffers (m : MethodEntry ω) (param : Struct m.params) (result : Struct m.results)
    (n : Node h ω) : Node h ω :=
  let world := match m.freeParam with
    | some free => free param n.world
    | none => n.world
  let world := match m.freeResult with
    | some free => free result world
    | none => world
  { n with world := world }

/-- `rpc_handle_request` once the method is found. -/
def serve (t : Nat) (req : Request) (m : MethodEntry ω) (n : Node h ω) : Node h ω :=
  match runParser E m req n with
  | (none, n) => n.faulted
  | (some (status, param), n) =>
    let (status, result, n) := runHandler m status param n
    match runEncoder m status result n with
    | (none, n) => n.faulted
    | (some (status, respLen), n) =>
      let tlv := if status = .ok ∧ 0 < respLen then some n.respTlv else none
      let (_, n) := rpcSendResponseTlv E t req.seq status tlv (if status = .ok then respLen else 0) n
      freeBuffers m param result n

def rpcHandleRequest (t : Nat) (msg : Bytes) (len : Nat) (n : Node h ω) : Node h ω :=
  match requestOf h msg len with
  | none => n
  | some req =>
    let n := n.storeMethod req.name
    match n.methods.get n.method with
    | none => (rpcSendResponseTlv E t req.seq .methodNotFound none 0 n).2
    | some m => serve E t req m n

/-- How many bytes of a response's payload are copied to the caller. -/
def Call.copyLen (c : Call) (msgLen : Nat) : Nat := if c.bufSize < msgLen then c.bufSize else msgLen

/-- `memcpy(pc->buf, payload, copy_len)`. -/
def Call.copy (c : Call) (r : Response) : Option Bytes :=
  c.buf.map fun b => if 0 < c.copyLen r.msgLen then
    r.payload.take (c.copyLen r.msgLen) ++ b.drop (c.copyLen r.msgLen) else b

theorem Call.copyLen_le (c : Call) (msgLen : Nat) :
    c.copyLen msgLen ≤ c.bufSize ∧ c.copyLen msgLen ≤ msgLen := by
  unfold copyLen
  split <;> omega

/-- `rpc_handle_response` on the call it found, with `rpc_waiter_wake`. -/
def Call.store (c : Call) (r : Response) (hr : c.copyLen r.msgLen ≤ r.payload.length) : Call where
  seq := c.seq
  buf := c.copy r
  bufSize := c.bufSize
  outLen := c.outLen
  respLen := c.copyLen r.msgLen
  status := r.status
  done := true
  signaled := true
  phase := c.phase
  room := by
    intro b hb
    obtain ⟨b₀, hb₀, rfl⟩ := Option.map_eq_some_iff.mp hb
    have hroom := c.room b₀ hb₀
    have hcopy := c.copyLen_le r.msgLen
    split
    · rw [List.length_append, List.length_take, List.length_drop]
      omega
    · exact hroom

def rpcHandleResponse (msg : Bytes) (len : Nat) (n : Node h ω) : Node h ω :=
  match responseOf h msg len with
  | none => n
  | some r =>
    match n.pending.get r.seq with
    | none => n
    | some c =>
      match n.calls[c]? with
      | none => n.faulted
      | some pc =>
        if hr : pc.copyLen r.msgLen ≤ r.payload.length then
          { n with calls := n.calls.set c (pc.store r hr) }
        else n.faulted

def rpcDispatchMessage (t : Nat) (buf : Bytes) (len : Nat) (n : Node h ω) : Node h ω :=
  let n := n.record (.dispatched t buf len)
  if len < sizeofRpcHeader then n
  else if isResponse h buf then rpcHandleResponse buf len n
  else rpcHandleRequest E t buf len n

/-- What `rpc_on_data` calls, for the transport `t` when `recv` would yield `polled`. -/
def Node.ports (t : Nat) (hasRecv : Bool) (polled : Bytes) : Ports (Node h ω) where
  rpcPortLock n := { n with locked := true }
  rpcPortUnlock n := { n with locked := false }
  heapMalloc _ n := n.heapMalloc E
  recv := if hasRecv then some fun n => (polled, n) else none
  dispatch := rpcDispatchMessage E t

def Node.setReasm (t : Nat) (r : Reasm) (n : Node h ω) : Node h ω :=
  { n with transports := Function.update n.transports t { n.transports t with reasm := r } }

/-- `rpc_on_data(t, buf, len)`; `none` while another thread holds the lock. -/
def Node.onData (t : Nat) (buf polled : Bytes) (n : Node h ω) : Option (Node h ω) :=
  let tr := n.transports t
  if tr.hasRecv && n.locked then none
  else
    (rpcOnData h (Node.ports E t tr.hasRecv polled) buf tr.reasm n).map fun (r, n) => n.setReasm t r

/-- The loop of `rpc_next_seq`: the number and the new `g_next_seq`. It depends on `g_next_seq` only,
so one that goes on for 2^32 iterations never ends. -/
def nextSeqLoop (pending : Hashmap (intKey h.word) Nat) : Nat → UInt32 → Option (UInt32 × UInt32)
  | 0, _ => none
  | fuel + 1, g =>
    let next := if g + 1 = 0 then 1 else g + 1
    if pending.contains g then nextSeqLoop pending fuel next else some (g, next)

def rpcNextSeq (n : Node h ω) : Option (UInt32 × Node h ω) :=
  (nextSeqLoop n.pending (2 ^ 32) n.nextSeq).map fun (s, next) => (s, { n with nextSeq := next })

def rpcSendRequestTlv (t : Nat) (seq : UInt32) (name tlv : Bytes) (n : Node h ω) :
    Int × Node h ω :=
  if (n.transports t).hasSend then
    let (ok, n) := n.heapMalloc E
    if ok then
      match requestMessage h seq name tlv with
      | some msg => n.send E t msg
      | none => (-1, n.faulted)
    else (-1, n)
  else (-1, n)

/-- `pc` as the first locked section fills it in. -/
def CallArgs.toCall (a : CallArgs) (seq : UInt32) (phase : Phase) : Call where
  seq := seq
  buf := a.outTlv
  bufSize := a.outLen.getD 0
  outLen := a.outLen
  respLen := 0
  status := RpcStatus.ok.code
  done := false
  signaled := false
  phase := phase
  room := by
    intro b hb
    cases hl : a.outLen with
    | none => exact Nat.zero_le _
    | some l => exact a.room b l hb hl

/-- A new entry of a table; the put of a new key asks for a node. -/
def putEntry {κ ν : Type} {K : HashKey κ} (m : Hashmap K ν) (key : κ) (value : ν) (mallocs : Nat) :
    Option (Hashmap K ν) × Nat :=
  if m.contains key then (m.put true key value, mallocs)
  else (m.put (E.heapMalloc mallocs) key value, mallocs + 1)

/-- A call that returns from the first locked section. -/
def Node.failCall (a : CallArgs) (seq : UInt32) (status : RpcStatus) (n : Node h ω) : Node h ω :=
  { n with calls := n.calls ++ [a.toCall seq (.failed (-status.code.toNat))] }

/-- `rpc_call_with_tlv` up to `rpc_waiter_wait`. The call is numbered by its place in `calls`; `none`
while another thread holds the lock, or when `rpc_next_seq` does not end. -/
def rpcCallWithTlv (a : CallArgs) (n : Node h ω) : Option (Node h ω) :=
  match n.transportMap.get a.name with
  | none => some (n.failCall a 0 .transportError)
  | some t =>
    if n.locked then none
    else
      (rpcNextSeq n).map fun (seq, n) =>
        let (ok, n) := n.heapMalloc E
        if !ok then n.failCall a seq .internalError
        else
          let (ok, n) := (E.waiterCreate n.waiters, { n with waiters := n.waiters + 1 })
          if !ok then n.failCall a seq .internalError
          else
            match putEntry E n.pending seq n.calls.length n.mallocs with
            | (none, mallocs) => { n with mallocs := mallocs }.faulted
            | (some pending, mallocs) =>
              let n := { n with pending := pending, mallocs := mallocs }
              let (r, n) := rpcSendRequestTlv E t seq a.name a.tlv n
              if r < 0 then
                { n with pending := (n.pending.remove seq).2 }.failCall a seq .transportError
              else { n with calls := n.calls ++ [a.toCall seq .sent] }

/-- `rpc_waiter_wait`, up to its first `pthread_cond_timedwait`. -/
def Call.wait (c : Call) : Option Call :=
  if c.phase = .sent then
    some (if c.signaled then { c with phase := .woken, signaled := false }
      else { c with phase := .blocked })
  else none

/-- The waiter finds `signaled` set. -/
def Call.wake (c : Call) : Option Call :=
  if c.phase = .blocked ∧ c.signaled then some { c with phase := .woken, signaled := false } else none

/-- `pthread_cond_timedwait` reports a timeout, which it may also when `signaled` has been set. -/
def Call.expire (c : Call) : Option Call :=
  if c.phase = .blocked then some { c with phase := .expired } else none

/-- `rpc_call_with_tlv` from its second `rpc_port_lock` on, for the value of `rpc_waiter_wait`. -/
def Call.return (c : Call) (waitRet : Int) : Call :=
  { c with
    outLen := if c.buf.isSome ∧ c.outLen.isSome then some c.respLen else c.outLen
    phase := .returned waitRet
      (if waitRet = 0 then c.status.toNat else RpcStatus.timeout.code.toNat) }

def Call.finish (c : Call) : Option Call :=
  match c.phase with
  | .woken => some (c.return 0)
  | .expired => some (c.return (-1))
  | _ => none

/-- A step of the thread of call `c`. -/
def Node.stepCall (f : Call → Option Call) (c : Nat) (n : Node h ω) : Option (Node h ω) :=
  n.calls[c]?.bind fun pc => (f pc).map fun pc => { n with calls := n.calls.set c pc }

/-- The second locked section. -/
def Node.finishCall (c : Nat) (n : Node h ω) : Option (Node h ω) :=
  if n.locked then none
  else
    n.calls[c]?.bind fun pc => pc.finish.map fun pc =>
      { n with pending := (n.pending.remove pc.seq).2, calls := n.calls.set c pc }

def rpcRegisterMethod (name : Bytes) (m : MethodEntry ω) (n : Node h ω) : Option (Node h ω) :=
  let (ok, n) := n.heapMalloc E
  if !ok then some n
  else if n.locked then none
  else
    match putEntry E n.methods name m n.mallocs with
    | (none, mallocs) => some { n with mallocs := mallocs }.faulted
    | (some methods, mallocs) => some { n with methods := methods, mallocs := mallocs }

def rpcBindTransport (name : Bytes) (t : Nat) (n : Node h ω) : Option (Node h ω) :=
  let (ok, n) := n.heapMalloc E
  if !ok then some n
  else if n.locked then none
  else
    match putEntry E n.transportMap name t n.mallocs with
    | (none, mallocs) => some { n with mallocs := mallocs }.faulted
    | (some transportMap, mallocs) => some { n with transportMap := transportMap, mallocs := mallocs }

/-- The atomic steps of a node: the locked sections and the moves of the waiters. -/
inductive Action (ω : Type) where
  | registerMethod (name : Bytes) (m : MethodEntry ω)
  | bindTransport (name : Bytes) (t : Nat)
  | call (a : CallArgs)
  | wait (c : Nat)
  | wake (c : Nat)
  | expire (c : Nat)
  | finish (c : Nat)
  | onData (t : Nat) (buf polled : Bytes)

/-- `none` when the action is not possible. Nothing follows undefined behaviour. -/
def Node.step (n : Node h ω) (a : Action ω) : Option (Node h ω) :=
  if n.fault then none
  else
    match a with
    | .registerMethod name m => rpcRegisterMethod E name m n
    | .bindTransport name t => rpcBindTransport E name t n
    | .call a => rpcCallWithTlv E a n
    | .wait c => n.stepCall Call.wait c
    | .wake c => n.stepCall Call.wake c
    | .expire c => n.stepCall Call.expire c
    | .finish c => n.finishCall c
    | .onData t buf polled => n.onData E t buf polled

end CcRpc
