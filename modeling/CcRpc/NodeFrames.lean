import CcRpc.Node
import CcRpc.Lib.Runs

/-!
# What the functions of a node leave alone

Serving a request changes no table and no call. A response changes at most the call that the
pending table has for its number. What every dispatch keeps, `rpc_on_data` keeps.
-/

namespace CcRpc

variable {h : Host} {ω : Type} (E : Env)

/-- No message was dispatched in this part of a log. -/
def Quiet (l : List Event) : Prop := ∀ t msg len, Event.dispatched t msg len ∉ l

theorem Quiet.append {l l' : List Event} (hl : Quiet l) (hl' : Quiet l') : Quiet (l ++ l') := by
  intro t msg len hmem
  rcases List.mem_append.mp hmem with hmem | hmem
  · exact hl t msg len hmem
  · exact hl' t msg len hmem

theorem quiet_nil : Quiet [] := fun _ _ _ hmem => by cases hmem

/-- The tables, the transports and the lock are the same. -/
structure Node.SameTables (n n' : Node h ω) : Prop where
  methods : n'.methods = n.methods
  nextSeq : n'.nextSeq = n.nextSeq
  pending : n'.pending = n.pending
  transportMap : n'.transportMap = n.transportMap
  transports : n'.transports = n.transports
  locked : n'.locked = n.locked

theorem Node.SameTables.refl (n : Node h ω) : n.SameTables n := ⟨rfl, rfl, rfl, rfl, rfl, rfl⟩

theorem Node.SameTables.trans {n m k : Node h ω} (hnm : n.SameTables m) (hmk : m.SameTables k) :
    n.SameTables k :=
  ⟨hmk.methods.trans hnm.methods, hmk.nextSeq.trans hnm.nextSeq, hmk.pending.trans hnm.pending,
    hmk.transportMap.trans hnm.transportMap, hmk.transports.trans hnm.transports,
    hmk.locked.trans hnm.locked⟩

/-- What serving a request may do: the tables and the calls stay, and no message is dispatched. -/
structure Node.Serves (n n' : Node h ω) : Prop where
  tables : n.SameTables n'
  calls : n'.calls = n.calls
  log : ∃ l, n'.log = n.log ++ l ∧ Quiet l
  fault : n.fault = true → n'.fault = true

theorem Node.serves_of_eq {n n' : Node h ω} (ht : n.SameTables n') (hc : n'.calls = n.calls)
    (hl : n'.log = n.log) (hf : n.fault = true → n'.fault = true) : n.Serves n' :=
  ⟨ht, hc, ⟨[], by rw [hl, List.append_nil], quiet_nil⟩, hf⟩

theorem Node.Serves.refl (n : Node h ω) : n.Serves n :=
  serves_of_eq ⟨rfl, rfl, rfl, rfl, rfl, rfl⟩ rfl rfl id

theorem Node.Serves.trans {n m k : Node h ω} (hnm : n.Serves m) (hmk : m.Serves k) :
    n.Serves k := by
  obtain ⟨l, hl, hq⟩ := hnm.log
  obtain ⟨l', hl', hq'⟩ := hmk.log
  refine ⟨hnm.tables.trans hmk.tables, hmk.calls.trans hnm.calls, ⟨l ++ l', ?_, hq.append hq'⟩, ?_⟩
  · rw [hl', hl, List.append_assoc]
  · exact fun hfault => hmk.fault (hnm.fault hfault)

theorem Node.faulted_serves (n : Node h ω) : n.Serves n.faulted :=
  serves_of_eq ⟨rfl, rfl, rfl, rfl, rfl, rfl⟩ rfl rfl fun _ => rfl

theorem Node.heapMalloc_serves (n : Node h ω) : n.Serves (n.heapMalloc E).2 :=
  serves_of_eq ⟨rfl, rfl, rfl, rfl, rfl, rfl⟩ rfl rfl id

theorem Node.record_serves (n : Node h ω) {e : Event} (he : ∀ t msg len, e ≠ .dispatched t msg len) :
    n.Serves (n.record e) := by
  refine ⟨⟨rfl, rfl, rfl, rfl, rfl, rfl⟩, rfl, ⟨[e], rfl, ?_⟩, id⟩
  intro t msg len hmem
  exact he t msg len (List.mem_singleton.mp hmem).symm

theorem Node.send_serves (t : Nat) (msg : Bytes) (n : Node h ω) : n.Serves (n.send E t msg).2 := by
  refine ⟨⟨rfl, rfl, rfl, rfl, rfl, rfl⟩, rfl, ⟨[.sent t msg (E.send n.sends msg)], rfl, ?_⟩, id⟩
  intro t' msg' len hmem
  cases List.mem_singleton.mp hmem

theorem rpcSendResponseTlv_serves (t : Nat) (seq : UInt32) (status : RpcStatus) (tlv : Option Bytes)
    (tlvLen : Nat) (n : Node h ω) : n.Serves (rpcSendResponseTlv E t seq status tlv tlvLen n).2 := by
  have hmalloc := n.heapMalloc_serves E
  unfold rpcSendResponseTlv
  split
  · dsimp only
    split
    · split
      · exact hmalloc.trans (Node.send_serves E t _ _)
      · exact hmalloc.trans (Node.faulted_serves _)
    · exact hmalloc
  · exact .refl n

theorem runParser_serves (m : MethodEntry ω) (req : Request) (n : Node h ω) :
    n.Serves (runParser E m req n).2 := by
  unfold runParser
  split
  · split
    · exact .refl n
    · exact Node.serves_of_eq ⟨rfl, rfl, rfl, rfl, rfl, rfl⟩ rfl rfl id
  · exact .refl n

theorem runHandler_serves (m : MethodEntry ω) (status : RpcStatus) (param : Struct m.params)
    (n : Node h ω) : n.Serves (runHandler m status param n).2.2 := by
  unfold runHandler
  split
  · exact .refl n
  · next handler hhandler =>
    split
    · have hworld : n.Serves { n with world := (handler param (Struct.zero m.results) n.world).2.2 } :=
        Node.serves_of_eq ⟨rfl, rfl, rfl, rfl, rfl, rfl⟩ rfl rfl id
      refine hworld.trans (Node.record_serves _ ?_)
      intro t msg len he
      cases he
    · exact .refl n

theorem runEncoder_serves (m : MethodEntry ω) (status : RpcStatus) (result : Struct m.results)
    (n : Node h ω) : n.Serves (runEncoder m status result n).2 := by
  unfold runEncoder
  dsimp only
  split
  · exact Node.serves_of_eq ⟨rfl, rfl, rfl, rfl, rfl, rfl⟩ rfl rfl id
  · split
    · split
      · exact Node.serves_of_eq ⟨rfl, rfl, rfl, rfl, rfl, rfl⟩ rfl rfl id
      · exact Node.serves_of_eq ⟨rfl, rfl, rfl, rfl, rfl, rfl⟩ rfl rfl id
    · exact Node.serves_of_eq ⟨rfl, rfl, rfl, rfl, rfl, rfl⟩ rfl rfl id

theorem freeBuffers_serves (m : MethodEntry ω) (param : Struct m.params) (result : Struct m.results)
    (n : Node h ω) : n.Serves (freeBuffers m param result n) :=
  Node.serves_of_eq ⟨rfl, rfl, rfl, rfl, rfl, rfl⟩ rfl rfl id

theorem serve_serves (t : Nat) (req : Request) (m : MethodEntry ω) (n : Node h ω) :
    n.Serves (serve E t req m n) := by
  have hparse := runParser_serves E m req n
  unfold serve
  split
  · next n₁ hp =>
    rw [hp] at hparse
    exact hparse.trans (Node.faulted_serves n₁)
  · next status param n₁ hp =>
    rw [hp] at hparse
    have hhandle := runHandler_serves m status param n₁
    have hencode := runEncoder_serves m (runHandler m status param n₁).1
      (runHandler m status param n₁).2.1 (runHandler m status param n₁).2.2
    dsimp only
    split
    · next n₃ he =>
      rw [he] at hencode
      exact ((hparse.trans hhandle).trans hencode).trans (Node.faulted_serves n₃)
    · next status' respLen n₃ he =>
      rw [he] at hencode
      exact (((hparse.trans hhandle).trans hencode).trans (rpcSendResponseTlv_serves E t _ _ _ _ n₃)).trans
        (freeBuffers_serves m param _ _)

theorem rpcHandleRequest_serves (t : Nat) (msg : Bytes) (len : Nat) (n : Node h ω) :
    n.Serves (rpcHandleRequest E t msg len n) := by
  unfold rpcHandleRequest
  split
  · exact .refl n
  · next req hreq =>
    have hstore : n.Serves (n.storeMethod req.name) := Node.serves_of_eq ⟨rfl, rfl, rfl, rfl, rfl, rfl⟩ rfl rfl id
    dsimp only
    split
    · exact hstore.trans (rpcSendResponseTlv_serves E t _ _ _ _ _)
    · exact hstore.trans (serve_serves E t req _ _)

/-- The response that a dispatched message is taken for. -/
def responseIn (h : Host) (msg : Bytes) (len : Nat) : Option Response :=
  if isResponse h msg then responseOf h msg len else none

/-- What `rpc_dispatch_message` does to the calls. -/
inductive Stores (n : Node h ω) (msg : Bytes) (len : Nat) : List Call → Prop where
  /-- Nothing. -/
  | same : Stores n msg len n.calls
  /-- It stores a response in the call that is pending under its number. -/
  | stored {r : Response} {c : Nat} {pc : Call} (hr : pc.copyLen r.msgLen ≤ r.payload.length)
      (hmsg : responseIn h msg len = some r) (hpending : n.pending.get r.seq = some c)
      (hcall : n.calls[c]? = some pc) : Stores n msg len (n.calls.set c (pc.store r hr))

/-- Everything a dispatch can do. -/
structure Dispatches (t : Nat) (msg : Bytes) (len : Nat) (n n' : Node h ω) : Prop where
  tables : n.SameTables n'
  log : ∃ l, n'.log = n.log ++ .dispatched t msg len :: l ∧ Quiet l
  calls : Stores n msg len n'.calls
  fault : n.fault = true → n'.fault = true

private theorem dispatches_of_serves {t : Nat} {msg : Bytes} {len : Nat} {n n' : Node h ω}
    (hs : (n.record (.dispatched t msg len)).Serves n') : Dispatches t msg len n n' := by
  obtain ⟨l, hl, hq⟩ := hs.log
  refine ⟨⟨hs.tables.methods, hs.tables.nextSeq, hs.tables.pending, hs.tables.transportMap,
    hs.tables.transports, hs.tables.locked⟩, ⟨l, ?_, hq⟩, ?_, hs.fault⟩
  · rw [hl, Node.record, List.append_assoc]
    rfl
  · rw [hs.calls]
    exact .same

theorem rpcDispatchMessage_spec (t : Nat) (msg : Bytes) (len : Nat) (n : Node h ω) :
    Dispatches t msg len n (rpcDispatchMessage E t msg len n) := by
  unfold rpcDispatchMessage
  dsimp only
  split
  · exact dispatches_of_serves (.refl _)
  · split
    · next hresp =>
      unfold rpcHandleResponse
      split
      · exact dispatches_of_serves (.refl _)
      · next r hr =>
        split
        · exact dispatches_of_serves (.refl _)
        · next c hc =>
          split
          · exact dispatches_of_serves (Node.faulted_serves _)
          · next pc hpc =>
            split
            · next hcopy =>
              refine ⟨⟨rfl, rfl, rfl, rfl, rfl, rfl⟩, ⟨[], rfl, quiet_nil⟩, ?_, id⟩
              exact .stored hcopy (by rw [responseIn, if_pos hresp, hr]) hc hpc
            · exact dispatches_of_serves (Node.faulted_serves _)
    · exact dispatches_of_serves (rpcHandleRequest_serves E t msg len _)

theorem rpcDispatchMessage_of_response {t : Nat} {msg : Bytes} {len : Nat} {n : Node h ω} {r : Response}
    (hmsg : responseIn h msg len = some r) :
    responseOf h msg len = some r ∧
      rpcDispatchMessage E t msg len n = rpcHandleResponse msg len (n.record (.dispatched t msg len)) := by
  unfold responseIn at hmsg
  split at hmsg
  · next hresp =>
    have hlong : ¬ len < sizeofRpcHeader := by
      intro hshort
      rw [responseOf, if_pos hshort] at hmsg
      cases hmsg
    refine ⟨hmsg, ?_⟩
    unfold rpcDispatchMessage
    dsimp only
    rw [if_neg hlong, if_pos hresp]
  · cases hmsg

theorem rpcDispatchMessage_stores {t : Nat} {msg : Bytes} {len : Nat} {n : Node h ω} {r : Response} {c : Nat}
    {pc : Call} (hmsg : responseIn h msg len = some r) (hget : n.pending.get r.seq = some c)
    (hc : n.calls[c]? = some pc) (hr : pc.copyLen r.msgLen ≤ r.payload.length) :
    (rpcDispatchMessage E t msg len n).calls = n.calls.set c (pc.store r hr) := by
  obtain ⟨hresponse, hdispatch⟩ := rpcDispatchMessage_of_response E (t := t) (n := n) hmsg
  have hpending : (n.record (.dispatched t msg len)).pending.get r.seq = some c := hget
  have hcalls : (n.record (.dispatched t msg len)).calls[c]? = some pc := hc
  rw [hdispatch, rpcHandleResponse, hresponse]
  dsimp only
  rw [hpending]
  dsimp only
  rw [hcalls]
  dsimp only
  rw [dif_pos hr]
  rfl

/-- Where nothing undefined happens the call is there and the response holds them. -/
theorem rpcDispatchMessage_copies {t : Nat} {msg : Bytes} {len : Nat} {n : Node h ω} {r : Response} {c : Nat}
    (hok : (rpcDispatchMessage E t msg len n).fault = false) (hmsg : responseIn h msg len = some r)
    (hget : n.pending.get r.seq = some c) :
    ∃ pc, n.calls[c]? = some pc ∧ pc.copyLen r.msgLen ≤ r.payload.length := by
  obtain ⟨hresponse, hdispatch⟩ := rpcDispatchMessage_of_response E (t := t) (n := n) hmsg
  have hpending : (n.record (.dispatched t msg len)).pending.get r.seq = some c := hget
  rw [hdispatch, rpcHandleResponse, hresponse] at hok
  dsimp only at hok
  rw [hpending] at hok
  dsimp only at hok
  split at hok
  · cases hok
  · next pc hc =>
    split at hok
    · next hr => exact ⟨pc, hc, hr⟩
    · cases hok

section OnData

variable {σ : Type} {P : σ → Prop} {ports : Ports σ}

private theorem onDataLoop_keeps (hmalloc : ∀ k s, P s → P (ports.heapMalloc k s).2)
    (hdispatch : ∀ msg len s, P s → P (ports.dispatch msg len s)) {fuel : Nat} {r r' : Reasm}
    {s s' : σ} (hs : P s) (hloop : onDataLoop h ports fuel r s = some (r', s')) : P s' := by
  induction fuel generalizing r s with
  | zero => cases hloop
  | succ fuel ih =>
    unfold onDataLoop at hloop
    split at hloop
    · cases hloop
      exact hs
    · split at hloop
      · cases hloop
        exact hs
      · dsimp only at hloop
        split at hloop
        · cases hloop
          exact hs
        · refine ih ?_ hloop
          split
          · exact hdispatch _ _ _ (hmalloc _ s hs)
          · exact hmalloc _ s hs

theorem rpcOnData_keeps (hlock : ∀ s, P s → P (ports.rpcPortLock s))
    (hunlock : ∀ s, P s → P (ports.rpcPortUnlock s))
    (hmalloc : ∀ k s, P s → P (ports.heapMalloc k s).2)
    (hrecv : ∀ recv, ports.recv = some recv → ∀ s, P s → P (recv s).2)
    (hdispatch : ∀ msg len s, P s → P (ports.dispatch msg len s)) {buf : Bytes} {r r' : Reasm}
    {s s' : σ} (hs : P s) (hdata : rpcOnData h ports buf r s = some (r', s')) : P s' := by
  unfold rpcOnData at hdata
  split at hdata
  · cases hdata
    exact hs
  · next recv hr =>
    have hread : P (if 0 < buf.length then (buf, ports.rpcPortLock s)
        else recv (ports.rpcPortLock s)).2 := by
      split
      · exact hlock s hs
      · exact hrecv recv hr _ (hlock s hs)
    dsimp only at hdata
    generalize (if 0 < buf.length then (buf, ports.rpcPortLock s)
      else recv (ports.rpcPortLock s)) = x at hdata hread
    obtain ⟨data, s₀⟩ := x
    dsimp only at hdata hread
    split at hdata
    · cases hdata
      exact hread
    · next hne =>
      obtain ⟨⟨r₁, s₁⟩, hloop, heq⟩ := Option.map_eq_some_iff.mp hdata
      cases heq
      refine hunlock _ (onDataLoop_keeps hmalloc hdispatch ?_ hloop)
      unfold rpcReasmAppend
      split
      · dsimp only
        split <;> exact hmalloc _ _ hread
      · exact hread

end OnData

/-- What does not depend on the lock, the counter of allocations and the reassembly state, and what
every dispatch keeps, `rpc_on_data` keeps. -/
theorem onData_keeps {P : Node h ω → Prop} {t : Nat}
    (hlocked : ∀ n b, P n → P { n with locked := b }) (hmallocs : ∀ n k, P n → P { n with mallocs := k })
    (hreasm : ∀ n r, P n → P (n.setReasm t r))
    (hdispatch : ∀ msg len n, P n → P (rpcDispatchMessage E t msg len n)) {buf polled : Bytes}
    {n n' : Node h ω} (hn : P n) (hstep : n.onData E t buf polled = some n') : P n' := by
  unfold Node.onData at hstep
  dsimp only at hstep
  split at hstep
  · cases hstep
  · obtain ⟨⟨r, m⟩, hdata, rfl⟩ := Option.map_eq_some_iff.mp hstep
    refine hreasm _ _ (rpcOnData_keeps (fun s hs => hlocked s true hs) (fun s hs => hlocked s false hs)
      (fun _ s hs => hmallocs s _ hs) ?_ (fun msg len s hs => hdispatch msg len s hs) hn hdata)
    intro recv hrecv s hs
    unfold Node.ports at hrecv
    dsimp only at hrecv
    split at hrecv
    · cases hrecv
      exact hs
    · cases hrecv

end CcRpc
