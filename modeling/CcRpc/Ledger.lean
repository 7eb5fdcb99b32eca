import CcRpc.Awaiting
import CcRpc.PairStreams
import CcRpc.Sequence

/-!
# The numbers of requests and responses

A node that has made fewer than 2^32 - 2 calls has given each request a number of its own. On each
transport it sends at most one response for each request that it dispatched there, under its number and
in their order.
-/

namespace CcRpc

variable {h h₁ h₂ : Host} {ω ω₁ ω₂ : Type} {E : Env} {C : Action ω → Prop} {o : ByteOrder} {t : Nat}

/-- The method length of a message is not 0. -/
def hasMethod (o : ByteOrder) (msg : Bytes) : Bool := ntohs (RpcHeader.load o msg).methodLen != 0

def messageSeq (o : ByteOrder) (msg : Bytes) : UInt32 := ntohl (RpcHeader.load o msg).seq

/-- The numbers of the requests among some messages. -/
def requestSeqs (o : ByteOrder) (ms : List Bytes) : List UInt32 :=
  (ms.filter (hasMethod o)).map (messageSeq o)

/-- The numbers of the responses among some messages. -/
def responseSeqs (o : ByteOrder) (ms : List Bytes) : List UInt32 :=
  (ms.filter fun msg => !hasMethod o msg).map (messageSeq o)

@[simp] theorem requestSeqs_append (ms ms' : List Bytes) :
    requestSeqs o (ms ++ ms') = requestSeqs o ms ++ requestSeqs o ms' := by
  simp [requestSeqs]

@[simp] theorem responseSeqs_append (ms ms' : List Bytes) :
    responseSeqs o (ms ++ ms') = responseSeqs o ms ++ responseSeqs o ms' := by
  simp [responseSeqs]

@[simp] theorem requestSeqs_nil : requestSeqs o [] = [] := rfl

@[simp] theorem responseSeqs_nil : responseSeqs o [] = [] := rfl

theorem requestSeqs_isPrefix {ms ms' : List Bytes} (hms : ms <+: ms') :
    requestSeqs o ms <+: requestSeqs o ms' := by
  obtain ⟨r, rfl⟩ := hms
  rw [requestSeqs_append]
  exact List.prefix_append _ _

theorem responseSeqs_isPrefix {ms ms' : List Bytes} (hms : ms <+: ms') :
    responseSeqs o ms <+: responseSeqs o ms' := by
  obtain ⟨r, rfl⟩ := hms
  rw [responseSeqs_append]
  exact List.prefix_append _ _

theorem isResponse_eq (h : Host) (msg : Bytes) : isResponse h msg = !hasMethod h.order msg := by
  simp [isResponse, hasMethod, bne]

theorem mem_requestSeqs {ms : List Bytes} {msg : Bytes} (hmem : msg ∈ ms) (hmsg : hasMethod o msg = true) :
    messageSeq o msg ∈ requestSeqs o ms :=
  List.mem_map_of_mem (List.mem_filter.mpr ⟨hmem, hmsg⟩)

theorem mem_responseSeqs {ms : List Bytes} {msg : Bytes} (hmem : msg ∈ ms)
    (hmsg : hasMethod o msg = false) : messageSeq o msg ∈ responseSeqs o ms := by
  apply List.mem_map_of_mem
  rw [List.mem_filter, hmsg]
  exact ⟨hmem, rfl⟩

/-- A name that the receiver has room for. -/
structure CallArgs.Named (a : CallArgs) : Prop where
  named : 1 ≤ strlen a.name
  room : strlen a.name ≤ 127

def Action.Named : Action ω → Prop
  | .call a => a.Named
  | _ => True

theorem request_header {seq : UInt32} {a : CallArgs} (ha : a.Named) {f : Bytes}
    (hf : requestMessage h seq a.name a.tlv = some f) :
    hasMethod h.order f = true ∧ messageSeq h.order f = seq := by
  have hlen := requestHeader_methodLen seq ha.room a.tlv.length
  have hnamed := ha.named
  rw [requestMessage_eq_some hf]
  unfold hasMethod messageSeq
  rw [RpcHeader.load_store]
  refine ⟨?_, by simp [requestHeader]⟩
  rw [bne_iff_ne]
  intro hz
  rw [hz] at hlen
  have hzero : (0 : UInt16).toNat = 0 := rfl
  omega

theorem response_header {seq : UInt32} {status : UInt16} {tlv : Option Bytes} {k : Nat} {g : Bytes}
    (hg : responseMessage h seq status tlv k = some g) :
    hasMethod h.order g = false ∧ messageSeq h.order g = seq := by
  obtain ⟨⟨rest, heq⟩, -, -⟩ := responseMessage_begins hg
  rw [heq]
  unfold hasMethod messageSeq
  rw [RpcHeader.load_store]
  exact ⟨(by decide : (ntohs (htons 0) != 0) = false), by simp [responseHeader]⟩

theorem requestOf_header {msg : Bytes} {len : Nat} {req : Request} (hreq : requestOf h msg len = some req) :
    req.seq = messageSeq h.order msg := by
  unfold requestOf at hreq
  split at hreq
  · cases hreq
  · dsimp only at hreq
    split at hreq
    · cases hreq
    · split at hreq
      · cases hreq
      · split at hreq
        · cases hreq
        · cases hreq
          rfl

theorem responseIn_header {msg : Bytes} {len : Nat} {r : Response} (hr : responseIn h msg len = some r) :
    hasMethod h.order msg = false ∧ r.seq = messageSeq h.order msg := by
  unfold responseIn at hr
  split at hr
  · next hresp =>
    rw [isResponse_eq] at hresp
    refine ⟨by simpa using hresp, ?_⟩
    unfold responseOf at hr
    split at hr
    · cases hr
    · dsimp only at hr
      split at hr
      · cases hr
      · cases hr
        rfl
  · cases hr

theorem eq_of_nodup_seqs {ms : List Bytes} {p : Bytes → Bool}
    (hnodup : ((ms.filter p).map (messageSeq o)).Nodup) {f g : Bytes} (hf : f ∈ ms) (hg : g ∈ ms)
    (hpf : p f = true) (hpg : p g = true) (hseq : messageSeq o f = messageSeq o g) : f = g :=
  List.inj_on_of_nodup_map hnodup (List.mem_filter.mpr ⟨hf, hpf⟩) (List.mem_filter.mpr ⟨hg, hpg⟩) hseq

/-- The messages dispatched for the transport `t`. -/
def messagesTaken (t : Nat) (l : List Event) : List Bytes := (dispatchedOn t l).map Prod.fst

theorem messagesTaken_append (t : Nat) (l l' : List Event) :
    messagesTaken t (l ++ l') = messagesTaken t l ++ messagesTaken t l' := by
  unfold messagesTaken
  rw [dispatchedOn_append, List.map_append]

theorem mem_messagesTaken {l : List Event} {msg : Bytes} :
    msg ∈ messagesTaken t l ↔ ∃ len, .dispatched t msg len ∈ l := by
  unfold messagesTaken dispatchedOn
  simp only [List.mem_map, List.mem_filterMap, Prod.exists]
  constructor
  · rintro ⟨msg', len, ⟨e, he, heq⟩, rfl⟩
    cases e with
    | dispatched t' m l =>
      dsimp only at heq
      split at heq
      · next ht =>
        cases heq
        exact ⟨len, ht ▸ he⟩
      · cases heq
    | sent => cases heq
    | ran => cases heq
  · rintro ⟨len, he⟩
    exact ⟨msg, len, ⟨_, he, by simp⟩, rfl⟩

theorem messagesSent_singleton (t' : Nat) (msg : Bytes) (ret : Nat) :
    messagesSent t [.sent t' msg ret] = if t' = t then [msg] else [] := by
  by_cases ht : t' = t <;> simp [messagesSent, sendsOn, ht]

/-- Where calls have names, the responses a node sends are to requests it dispatched before. -/
theorem Pieces.responses (hC : ∀ a, C (.call a) → a.Named) {l : List Event} (hl : Pieces h E C l) :
    (responseSeqs h.order (messagesSent t l)).Sublist (requestSeqs h.order (messagesTaken t l)) := by
  apply hl.induction
    (P := fun l => (responseSeqs h.order (messagesSent t l)).Sublist
      (requestSeqs h.order (messagesTaken t l)))
  · exact List.Sublist.refl _
  · intro p l hp ih
    rw [messagesSent_append, messagesTaken_append, responseSeqs_append, requestSeqs_append]
    refine List.Sublist.append ?_ ih
    cases hp with
    | @call a t' seq f k hcall hmsg =>
      have hrequest := (request_header (hC a hcall) hmsg).1
      rw [messagesSent_singleton]
      split <;> simp [responseSeqs, hrequest]
    | @dispatch t' msg len l' hans =>
      cases hans with
      | nothing => exact List.nil_sublist _
      | @request req ran sent hkind hreq hran hsent =>
        have hrun : messagesSent t ran = [] := by
          rcases hran with rfl | ⟨param, rfl⟩ <;> rfl
        have hsplit : messagesSent t (.dispatched t' msg len :: (ran ++ sent)) = messagesSent t sent := by
          change messagesSent t (ran ++ sent) = _
          rw [messagesSent_append, hrun]
          rfl
        rw [hsplit]
        rcases hsent with rfl | ⟨status, tlv, k, g, j, hg, rfl⟩
        · exact List.nil_sublist _
        · rw [messagesSent_singleton]
          split
          · next ht =>
            subst ht
            obtain ⟨hresponse, hseq⟩ := response_header hg
            rw [isResponse_eq] at hkind
            have hrequest : hasMethod h.order msg = true := by simpa using hkind
            have hsame : messageSeq h.order g = messageSeq h.order msg :=
              hseq.trans (requestOf_header hreq)
            have htaken : messagesTaken t' (.dispatched t' msg len :: (ran ++ [.sent t' g (E.send j g)])) =
                msg :: messagesTaken t' (ran ++ [.sent t' g (E.send j g)]) := by
              unfold messagesTaken
              rw [dispatchedOn_cons]
              rfl
            rw [htaken]
            simp [responseSeqs, requestSeqs, hresponse, hrequest, hsame]
          · exact List.nil_sublist _

/-- Each number below `g_next_seq` was given to at most one call, and those were all. -/
structure Node.Numbered (t : Nat) (n : Node h ω) : Prop where
  pos : n.nextSeq ≠ 0
  next : n.nextSeq.toNat ≤ n.calls.length + 1
  calls : ∀ pc ∈ n.calls, pc.seq.toNat < n.nextSeq.toNat
  fresh : (requestSeqs h.order (messagesSent t n.log)).Nodup
  below : ∀ s ∈ requestSeqs h.order (messagesSent t n.log), s.toNat < n.nextSeq.toNat

theorem Boot.numbered (b : Boot ω) (t : Nat) : (b.node h).Numbered t := by
  refine ⟨?_, ?_, ?_, ?_, ?_⟩
  · change (1 : UInt32) ≠ 0
    decide
  · exact Nat.le_refl 1
  · intro pc hpc
    cases hpc
  · exact List.nodup_nil
  · intro s hs
    cases hs

theorem Node.Numbered.congr {n n' : Node h ω} (hn : n.Numbered t) (hnext : n'.nextSeq = n.nextSeq)
    (hlen : n.calls.length ≤ n'.calls.length)
    (hcalls : ∀ pc ∈ n'.calls, pc.seq = 0 ∨ ∃ pd ∈ n.calls, pc.seq = pd.seq)
    (hlog : requestSeqs h.order (messagesSent t n'.log) = requestSeqs h.order (messagesSent t n.log)) :
    n'.Numbered t := by
  refine ⟨by rw [hnext]; exact hn.pos, ?_, ?_, by rw [hlog]; exact hn.fresh, ?_⟩
  · have hle := hn.next
    rw [hnext]
    omega
  · intro pc hpc
    rw [hnext]
    rcases hcalls pc hpc with hz | ⟨pd, hpd, hseq⟩
    · rw [hz]
      exact toNat_pos hn.pos
    · rw [hseq]
      exact hn.calls pd hpd
  · rw [hlog, hnext]
    exact hn.below

theorem Answered.requests {msg : Bytes} {t' len : Nat} {l : List Event} (hl : Answered h E t' msg len l) :
    requestSeqs h.order (messagesSent t l) = [] := by
  cases hl with
  | nothing => rfl
  | @request req ran sent hkind hreq hran hsent =>
    have hrun : messagesSent t ran = [] := by
      rcases hran with rfl | ⟨param, rfl⟩ <;> rfl
    rw [messagesSent_append, hrun, List.nil_append]
    rcases hsent with rfl | ⟨status, tlv, k, g, j, hg, rfl⟩
    · rfl
    · rw [messagesSent_singleton]
      split <;> simp [requestSeqs, (response_header hg).1]

theorem Node.Numbered.dispatch {n : Node h ω} (hn : n.Numbered t) (t' : Nat) (msg : Bytes) (len : Nat) :
    (rpcDispatchMessage E t' msg len n).Numbered t := by
  have hd := rpcDispatchMessage_spec E t' msg len n
  obtain ⟨l, hl, hans⟩ := rpcDispatchMessage_answered (E := E) t' msg len n
  have hcalls := hd.calls
  generalize hcs : (rpcDispatchMessage E t' msg len n).calls = calls at hcalls
  apply hn.congr hd.tables.nextSeq
  · rw [hcs]
    cases hcalls with
    | same => exact Nat.le_refl _
    | stored hr hmsg hget hc => rw [List.length_set]
  · rw [hcs]
    intro pc hpc
    cases hcalls with
    | same => exact .inr ⟨pc, hpc, rfl⟩
    | stored hr hmsg hget hc =>
      rcases List.mem_or_eq_of_mem_set hpc with hmem | rfl
      · exact .inr ⟨pc, hmem, rfl⟩
      · exact .inr ⟨_, List.mem_of_getElem? hc, rfl⟩
  · rw [hl, messagesSent_append, requestSeqs_append]
    change _ ++ requestSeqs h.order (messagesSent t l) = _
    rw [hans.requests, List.append_nil]

/-- The loop of `rpc_next_seq` stops at once at a number that no call has. -/
theorem nextSeqLoop_fresh {n : Node h ω} (hsound : n.Sound) (hn : n.Numbered t)
    (hbound : n.nextSeq.toNat + 1 < 2 ^ 32) {seq next : UInt32}
    (hloop : nextSeqLoop n.pending (2 ^ 32) n.nextSeq = some (seq, next)) :
    seq = n.nextSeq ∧ next.toNat = n.nextSeq.toNat + 1 := by
  have hfree : n.pending.get n.nextSeq = none := by
    cases hget : n.pending.get n.nextSeq with
    | none => rfl
    | some c =>
      obtain ⟨pc, hc, -, hseq⟩ := (hsound.pending _ _).mp hget
      have hlt := hn.calls pc (List.mem_of_getElem? hc)
      rw [hseq] at hlt
      exact absurd hlt (Nat.lt_irrefl _)
  have hnot : n.pending.contains n.nextSeq = false := by simpa [Hashmap.contains] using hfree
  have hadd : (n.nextSeq + 1).toNat = n.nextSeq.toNat + 1 := by
    rw [UInt32.toNat_add]
    exact Nat.mod_eq_of_lt hbound
  have hne : n.nextSeq + 1 ≠ 0 := by
    intro hz
    rw [hz] at hadd
    exact absurd hadd.symm (Nat.succ_ne_zero _)
  have hfuel : (2 : Nat) ^ 32 = (2 ^ 32 - 1) + 1 := by decide
  rw [hfuel, nextSeqLoop, hnot] at hloop
  simp only [hne, Bool.false_eq_true, if_false, Option.some.injEq, Prod.mk.injEq] at hloop
  rw [← hloop.1, ← hloop.2]
  exact ⟨rfl, hadd⟩

theorem Node.Numbered.issue {n n' : Node h ω} (hn : n.Numbered t) {a : CallArgs} (ha : a.Named)
    {phase : Phase} (hcalls : n'.calls = n.calls ++ [a.toCall n.nextSeq phase])
    (hnext : n'.nextSeq.toNat = n.nextSeq.toNat + 1)
    (hlog : n'.log = n.log ∨ ∃ t' f k, requestMessage h n.nextSeq a.name a.tlv = some f ∧
      n'.log = n.log ++ [.sent t' f k]) : n'.Numbered t := by
  have hle := hn.next
  have hrequests : requestSeqs h.order (messagesSent t n'.log) =
        requestSeqs h.order (messagesSent t n.log) ∨
      requestSeqs h.order (messagesSent t n'.log) =
        requestSeqs h.order (messagesSent t n.log) ++ [n.nextSeq] := by
    rcases hlog with hsame | ⟨t', f, k, hf, hsent⟩
    · exact .inl (by rw [hsame])
    · obtain ⟨hkind, hseq⟩ := request_header ha hf
      rw [hsent, messagesSent_append, requestSeqs_append, messagesSent_singleton]
      split
      · exact .inr (by simp [requestSeqs, hkind, hseq])
      · exact .inl (List.append_nil _)
  refine ⟨?_, ?_, ?_, ?_, ?_⟩
  · intro hz
    rw [hz] at hnext
    exact absurd hnext.symm (Nat.succ_ne_zero _)
  · rw [hnext, hcalls, List.length_append, List.length_singleton]
    omega
  · intro pc hpc
    rw [hcalls] at hpc
    rw [hnext]
    rcases List.mem_append.mp hpc with hpc | hpc
    · exact Nat.lt_succ_of_lt (hn.calls pc hpc)
    · rw [List.mem_singleton.mp hpc]
      exact Nat.lt_succ_self _
  · rcases hrequests with heq | heq
    · rw [heq]
      exact hn.fresh
    · rw [heq]
      apply List.Nodup.append hn.fresh (List.nodup_singleton _)
      intro s hs hnew
      rw [List.mem_singleton.mp hnew] at hs
      exact absurd (hn.below _ hs) (Nat.lt_irrefl _)
  · intro s hs
    rw [hnext]
    rcases hrequests with heq | heq
    · rw [heq] at hs
      exact Nat.lt_succ_of_lt (hn.below s hs)
    · rw [heq] at hs
      rcases List.mem_append.mp hs with hs | hs
      · exact Nat.lt_succ_of_lt (hn.below s hs)
      · rw [List.mem_singleton.mp hs]
        exact Nat.lt_succ_self _

theorem Node.Numbered.call {a : CallArgs} {n n' : Node h ω} (hsound : n.Sound) (hn : n.Numbered t)
    (ha : a.Named) (hbound : n.calls.length + 2 < 2 ^ 32) (hcall : FirstSection E a n n')
    (hok : n'.fault = false) : n'.Numbered t := by
  have hle := hn.next
  have hroom : n.nextSeq.toNat + 1 < 2 ^ 32 := by omega
  cases hcall with
  | unbound =>
    have hnext : (n.failCall a 0 .transportError).nextSeq = n.nextSeq := rfl
    apply hn.congr hnext
    · simp [Node.failCall]
    · intro pc hpc
      rcases List.mem_append.mp hpc with hpc | hpc
      · exact .inr ⟨pc, hpc, rfl⟩
      · rw [List.mem_singleton.mp hpc]
        exact .inl rfl
    · rfl
  | refused mallocs waiters hseq =>
    obtain ⟨rfl, hnext⟩ := nextSeqLoop_fresh hsound hn hroom hseq
    exact hn.issue ha rfl hnext (.inl rfl)
  | faults mallocs waiters hseq => cases hok
  | @unsent t' seq next mallocs waiters k pending n₁ r hbound' hseq hput hsend hret hserve =>
    obtain ⟨rfl, hnext⟩ := nextSeqLoop_fresh hsound hn hroom hseq
    apply hn.issue ha (congrArg (· ++ _) hserve.calls)
    · exact (congrArg UInt32.toNat hserve.tables.nextSeq).trans hnext
    · rcases rpcSendRequestTlv_log hsend with ⟨hlog, -⟩ | ⟨f, -, hf, -, hlog⟩
      · exact .inl hlog
      · exact .inr ⟨_, f, _, hf, hlog⟩
  | @sends t' seq next mallocs waiters k pending n₁ r hbound' hseq hput hsend hret hserve =>
    obtain ⟨rfl, hnext⟩ := nextSeqLoop_fresh hsound hn hroom hseq
    apply hn.issue ha (congrArg (· ++ _) hserve.calls)
    · exact (congrArg UInt32.toNat hserve.tables.nextSeq).trans hnext
    · rcases rpcSendRequestTlv_log hsend with ⟨hlog, -⟩ | ⟨f, -, hf, -, hlog⟩
      · exact .inl hlog
      · exact .inr ⟨_, f, _, hf, hlog⟩

theorem Node.Numbered.step {n n' : Node h ω} {a : Action ω} (hsound : n.Sound) (hn : n.Numbered t)
    (ha : a.Named) (hbound : n.calls.length + 2 < 2 ^ 32) (hstep : n.step E a = some n')
    (hok : n'.fault = false) : n'.Numbered t := by
  have hset : ∀ {c : Nat} {pc pc' : Call}, n.calls[c]? = some pc → pc'.seq = pc.seq →
      ∀ q ∈ n.calls.set c pc', q.seq = 0 ∨ ∃ pd ∈ n.calls, q.seq = pd.seq := by
    intro c pc pc' hc hseq q hq
    rcases List.mem_or_eq_of_mem_set hq with hmem | rfl
    · exact .inr ⟨q, hmem, rfl⟩
    · exact .inr ⟨pc, List.mem_of_getElem? hc, hseq⟩
  have hsame : ∀ q ∈ n.calls, q.seq = 0 ∨ ∃ pd ∈ n.calls, q.seq = pd.seq :=
    fun q hq => .inr ⟨q, hq, rfl⟩
  cases Node.step_cases hstep with
  | registerMethod _ _ _ _ => exact hn.congr rfl (Nat.le_refl _) hsame rfl
  | bindTransport _ _ _ => exact hn.congr rfl (Nat.le_refl _) hsame rfl
  | call hcall => exact hn.call hsound ha hbound hcall hok
  | thread hc hturn =>
    refine hn.congr rfl ?_ (hset hc ?_) rfl
    · rw [List.length_set]
    · cases hturn with
      | wait hw => exact (Call.wait_moves hw).same.seq
      | wake hw => exact (Call.wake_moves hw).same.seq
      | expire hw => exact (Call.expire_moves hw).same.seq
  | finish hc hf =>
    refine hn.congr rfl ?_ (hset hc ?_) rfl
    · rw [List.length_set]
    · rcases Call.finish_spec hf with ⟨-, rfl⟩ | ⟨-, rfl⟩ <;> rfl
  | onData hdata =>
    apply onData_keeps E (P := Node.Numbered t) _ _ _ _ hn hdata
    · exact fun m b hm => hm.congr rfl (Nat.le_refl _) (fun q hq => .inr ⟨q, hq, rfl⟩) rfl
    · exact fun m k hm => hm.congr rfl (Nat.le_refl _) (fun q hq => .inr ⟨q, hq, rfl⟩) rfl
    · exact fun m r hm => hm.congr rfl (Nat.le_refl _) (fun q hq => .inr ⟨q, hq, rfl⟩) rfl
    · exact fun msg len m hm => hm.dispatch _ msg len

theorem Node.step_length {n n' : Node h ω} {a : Action ω} (hstep : n.step E a = some n') :
    n.calls.length ≤ n'.calls.length := by
  cases Node.step_cases hstep with
  | registerMethod _ _ _ _ => exact Nat.le_refl _
  | bindTransport _ _ _ => exact Nat.le_refl _
  | call hcall =>
    cases hcall.issues with
    | fault _ hc _ => rw [hc]
    | fails hc _ => simp [hc]
    | sends _ hc _ => simp [hc]
  | thread _ _ => rw [List.length_set]
  | finish _ _ => rw [List.length_set]
  | @onData t' _ _ _ hdata =>
    apply onData_keeps E (P := fun m : Node h ω => n.calls.length ≤ m.calls.length) _ _ _ _
      (Nat.le_refl _) hdata
    · exact fun m b hm => hm
    · exact fun m k hm => hm
    · exact fun m r hm => hm
    · intro msg len m hm
      have hcalls := (rpcDispatchMessage_spec E t' msg len m).calls
      generalize (rpcDispatchMessage E t' msg len m).calls = calls at hcalls
      cases hcalls with
      | same => exact hm
      | stored _ _ _ _ => rwa [List.length_set]

theorem Node.run_length {n n' : Node h ω} {acts : List (Action ω)}
    (hrun : Runs.run (Node.step E) n acts = some n') : n.calls.length ≤ n'.calls.length :=
  Runs.run_invariant (P := fun m => n.calls.length ≤ m.calls.length)
    (fun _ _ _ hm hstep => hm.trans (Node.step_length hstep)) (Nat.le_refl _) hrun

/-- After a run with fewer than 2^32 - 2 calls the numbers of the requests are different. -/
theorem Node.Numbered.run {n n' : Node h ω} (hsound : n.Sound) (hn : n.Numbered t)
    {acts : List (Action ω)} (hacts : ∀ a ∈ acts, a.Named)
    (hrun : Runs.run (Node.step E) n acts = some n') (hbound : n'.calls.length + 2 < 2 ^ 32)
    (hok : n'.fault = false) : n'.Numbered t := by
  induction acts generalizing n with
  | nil =>
    cases hrun
    exact hn
  | cons a as ih =>
    obtain ⟨m, hstep, hrun⟩ := Runs.run_cons.mp hrun
    have hlen := (Node.step_length hstep).trans (Node.run_length hrun)
    have hmok : m.fault = false := by
      cases as with
      | nil =>
        cases hrun
        exact hok
      | cons b bs =>
        obtain ⟨k, hnext, -⟩ := Runs.run_cons.mp hrun
        exact Node.step_fault hnext
    have hm := hn.step hsound (hacts a (by simp)) (by omega) hstep hmok
    exact ih (hsound.step hstep) hm (fun b hb => hacts b (by simp [hb])) hrun

end CcRpc
