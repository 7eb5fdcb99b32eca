import CcRpc.Answering
import CcRpc.Lib.Runs

/-!
# The bytes a transport accepts

`t->send` may take all of a message, part of it or none. Neither caller looks at how much it took:
`rpc_call_with_tlv` asks whether the returned value is negative, `rpc_handle_request` asks nothing.
What the transport has accepted is a sequence of frames as long as it takes whole messages.
-/

namespace CcRpc

variable {h : Host} {ω : Type} {E : Env}

/-- The messages handed to the transport `t`, each with the value `t->send` returned. -/
def sendsOn (t : Nat) (l : List Event) : List (Bytes × Nat) :=
  l.filterMap fun
    | .sent t' msg ret => if t' = t then some (msg, ret) else none
    | .dispatched .. | .ran .. => none

/-- The bytes the transport took; a value above the length is an error. -/
def acceptedBytes (x : Bytes × Nat) : Bytes := if x.2 ≤ x.1.length then x.1.take x.2 else []

/-- Everything the transport has accepted, in order. -/
def stream (sends : List (Bytes × Nat)) : Bytes := sends.flatMap acceptedBytes

/-- The sending function returned a negative value. -/
def SendFailed (x : Bytes × Nat) : Prop := intOfSizeT x.2 < 0

/-- At all times the accepted bytes are complete frames, except after a failed send that is the last. -/
def StreamFramed (o : ByteOrder) (sends : List (Bytes × Nat)) : Prop :=
  ∀ before after, sends = before ++ after → (wireFraming o).Whole (stream before) ∨
    after = [] ∧ ∃ x, before.getLast? = some x ∧ SendFailed x

/-- The transport took all of a message or nothing of it. A message of more than 4 GiB does not say its
length; of that, what was taken happens to be complete frames. -/
def WholeOrNothing (o : ByteOrder) (x : Bytes × Nat) : Prop :=
  if x.1.length < sizeofRpcHeader + 2 ^ 32 then x.2 = 0 ∨ x.1.length ≤ x.2
  else (wireFraming o).Whole (acceptedBytes x)

/-- A message says its length modulo 4 GiB. -/
structure SaysLength (o : ByteOrder) (msg : Bytes) : Prop where
  header : sizeofRpcHeader ≤ msg.length
  length : announced o msg = (msg.length - sizeofRpcHeader) % 2 ^ 32

theorem saysLength_request {seq : UInt32} {name tlv msg : Bytes}
    (hmsg : requestMessage h seq name tlv = some msg) : SaysLength h.order msg := by
  have heq := requestMessage_eq_some hmsg
  have hlen : msg.length = sizeofRpcHeader + (strlen name + tlv.length) := by
    rw [heq, List.length_append, RpcHeader.store_length, List.length_append, length_cstr]
  refine ⟨by omega, ?_⟩
  rw [hlen, Nat.add_sub_cancel_left, heq, announced_store, requestHeader_msgLen]

theorem saysLength_response {seq : UInt32} {status : UInt16} {tlv : Option Bytes} {len : Nat} {msg : Bytes}
    (hmsg : responseMessage h seq status tlv len = some msg) : SaysLength h.order msg := by
  obtain ⟨⟨rest, heq⟩, hheader, hlen⟩ := responseMessage_begins hmsg
  refine ⟨hheader, ?_⟩
  rw [hlen, heq, announced_store]
  simp [responseHeader, UInt32.toNat_ofNat']

theorem SaysLength.isFrame {o : ByteOrder} {msg : Bytes} (hmsg : SaysLength o msg)
    (hlt : msg.length < sizeofRpcHeader + 2 ^ 32) : (wireFraming o).IsFrame msg := by
  have hheader := hmsg.header
  rw [isFrame_iff, hmsg.length, Nat.mod_eq_of_lt (by omega)]
  exact ⟨hheader, by omega⟩

theorem whole_acceptedBytes_iff {o : ByteOrder} {x : Bytes × Nat} (hx : SaysLength o x.1) :
    (wireFraming o).Whole (acceptedBytes x) ↔ WholeOrNothing o x := by
  unfold WholeOrNothing
  by_cases hlt : x.1.length < sizeofRpcHeader + 2 ^ 32
  · rw [if_pos hlt]
    unfold acceptedBytes
    by_cases hle : x.2 ≤ x.1.length
    · rw [if_pos hle, Framing.whole_take_iff (hx.isFrame hlt) hle]
      omega
    · rw [if_neg hle]
      exact iff_of_true Framing.whole_nil (Or.inr (by omega))
  · rw [if_neg hlt]

theorem stream_append (sends sends' : List (Bytes × Nat)) :
    stream (sends ++ sends') = stream sends ++ stream sends' := List.flatMap_append

theorem whole_stream {o : ByteOrder} {sends : List (Bytes × Nat)} (hlengths : ∀ x ∈ sends, SaysLength o x.1)
    (htaken : ∀ x ∈ sends, WholeOrNothing o x) : (wireFraming o).Whole (stream sends) := by
  induction sends with
  | nil => exact Framing.whole_nil
  | cons x xs ih =>
    have hx := (whole_acceptedBytes_iff (hlengths x (by simp))).mpr (htaken x (by simp))
    have hxs := ih (fun y hy => hlengths y (by simp [hy])) (fun y hy => htaken y (by simp [hy]))
    exact (hx.append_iff _).mpr hxs

/-- A stream is well framed at all times if and only if every message was taken whole or not at all,
but perhaps for a last one whose send failed. -/
theorem streamFramed_iff_wholeOrNothing {o : ByteOrder} {sends : List (Bytes × Nat)}
    (hlengths : ∀ x ∈ sends, SaysLength o x.1) :
    StreamFramed o sends ↔ ∀ before x after, sends = before ++ x :: after →
      WholeOrNothing o x ∨ after = [] ∧ SendFailed x := by
  constructor
  · intro hframed before x after hsends
    have hx : SaysLength o x.1 := hlengths x (by rw [hsends]; simp)
    rcases hframed before (x :: after) hsends with hbefore | ⟨hnil, -⟩
    · rcases hframed (before ++ [x]) after (by rw [hsends, List.append_assoc]; rfl) with hwith | hlast
      · rw [stream_append, hbefore.append_iff] at hwith
        apply Or.inl
        rw [← whole_acceptedBytes_iff hx]
        rwa [stream, List.flatMap_singleton] at hwith
      · obtain ⟨hnil, y, hy, hfailed⟩ := hlast
        rw [List.getLast?_concat, Option.some.injEq] at hy
        exact Or.inr ⟨hnil, hy ▸ hfailed⟩
    · cases hnil
  · intro htaken before after hsends
    by_cases hall : ∀ x ∈ before, WholeOrNothing o x
    · exact Or.inl (whole_stream (fun x hx => hlengths x (by rw [hsends]; simp [hx])) hall)
    · push Not at hall
      obtain ⟨x, hx, hpartial⟩ := hall
      obtain ⟨front, back, rfl⟩ := List.append_of_mem hx
      rw [List.append_assoc] at hsends
      rcases htaken front x (back ++ after) hsends with hwhole | ⟨hnil, hfailed⟩
      · exact absurd hwhole hpartial
      · obtain ⟨rfl, rfl⟩ := List.append_eq_nil_iff.mp hnil
        exact Or.inr ⟨rfl, x, List.getLast?_concat, hfailed⟩

/-- Every message the node has sent says its length. -/
def MessagesSay (n : Node h ω) : Prop := ∀ p ∈ sentIn n.log, SaysLength h.order p.2

theorem MessagesSay.append {n n' : Node h ω} (hn : MessagesSay n) {l : List Event}
    (hl : n'.log = n.log ++ l) (hlengths : ∀ p ∈ sentIn l, SaysLength h.order p.2) : MessagesSay n' := by
  intro p hp
  rw [hl, sentIn_append] at hp
  rcases List.mem_append.mp hp with hp | hp
  · exact hn p hp
  · exact hlengths p hp

theorem MessagesSay.congr {n n' : Node h ω} (hn : MessagesSay n) (hl : n'.log = n.log) :
    MessagesSay n' := by
  intro p hp
  rw [hl] at hp
  exact hn p hp

theorem MessagesSay.sendRequest {n : Node h ω} (hn : MessagesSay n) (t : Nat) (seq : UInt32)
    (name tlv : Bytes) : MessagesSay (rpcSendRequestTlv E t seq name tlv n).2 := by
  unfold rpcSendRequestTlv
  split
  · dsimp only [Node.heapMalloc]
    split
    · cases hmsg : requestMessage h seq name tlv with
      | none => exact hn.congr rfl
      | some msg =>
        apply hn.append rfl
        intro p hp
        rw [List.mem_singleton.mp hp]
        exact saysLength_request hmsg
    · exact hn.congr rfl
  · exact hn

theorem MessagesSay.dispatch {n : Node h ω} (hn : MessagesSay n) (t : Nat) (msg : Bytes) (len : Nat) :
    MessagesSay (rpcDispatchMessage E t msg len n) := by
  have hrecord : MessagesSay (n.record (.dispatched t msg len)) := by
    apply hn.append rfl
    intro p hp
    cases hp
  unfold rpcDispatchMessage
  dsimp only
  split
  · exact hrecord
  · split
    · apply hrecord.congr
      unfold rpcHandleResponse
      split
      · rfl
      · split
        · rfl
        · split
          · rfl
          · split <;> rfl
    · cases hreq : requestOf h msg len with
      | none =>
        unfold rpcHandleRequest
        rw [hreq]
        exact hrecord
      | some req =>
        obtain ⟨l, hl, hanswer⟩ := rpcHandleRequest_log (E := E) (t := t)
          (n := n.record (.dispatched t msg len)) hreq
        apply hrecord.append hl
        intro p hp
        rcases hanswer with ⟨-, status, tlv, k, answer, hsent, hbuilt⟩ | ⟨-, hnone⟩
        · rw [hsent] at hp
          rw [List.mem_singleton.mp hp]
          exact saysLength_response hbuilt
        · rw [hnone] at hp
          cases hp

theorem MessagesSay.call {a : CallArgs} {n n' : Node h ω} (hn : MessagesSay n)
    (hstep : rpcCallWithTlv E a n = some n') : MessagesSay n' := by
  unfold rpcCallWithTlv at hstep
  split at hstep
  · cases hstep
    exact hn.congr rfl
  · next t ht =>
    split at hstep
    · cases hstep
    · obtain ⟨⟨seq, m⟩, hseq, rfl⟩ := Option.map_eq_some_iff.mp hstep
      obtain ⟨⟨s, next⟩, hloop, heq⟩ := Option.map_eq_some_iff.mp hseq
      cases heq
      dsimp only [Node.heapMalloc]
      split
      · exact hn.congr rfl
      · split
        · exact hn.congr rfl
        · split
          · exact hn.congr rfl
          · next pending mallocs hput =>
            have hbefore : MessagesSay
                ({ n with nextSeq := next, mallocs := mallocs, waiters := n.waiters + 1,
                          pending := pending } : Node h ω) := hn.congr rfl
            have hsent := hbefore.sendRequest (E := E) t seq a.name a.tlv
            split
            · exact hsent.congr rfl
            · exact hsent.congr rfl

theorem MessagesSay.step {n n' : Node h ω} {a : Action ω} (hn : MessagesSay n)
    (hstep : n.step E a = some n') : MessagesSay n' := by
  have hmove : ∀ (f : Call → Option Call) c, n.stepCall f c = some n' → MessagesSay n' := by
    intro f c hmoved
    obtain ⟨pc, -, hmoved⟩ := Option.bind_eq_some_iff.mp hmoved
    obtain ⟨pc', -, rfl⟩ := Option.map_eq_some_iff.mp hmoved
    exact hn.congr rfl
  unfold Node.step at hstep
  split at hstep
  · cases hstep
  · cases a with
    | registerMethod name m => exact hn.congr (rpcRegisterMethod_calls hstep).2.2
    | bindTransport name t => exact hn.congr (rpcBindTransport_calls hstep).2.2
    | call a => exact hn.call hstep
    | wait c => exact hmove _ c hstep
    | wake c => exact hmove _ c hstep
    | expire c => exact hmove _ c hstep
    | finish c =>
      change n.finishCall c = some n' at hstep
      unfold Node.finishCall at hstep
      split at hstep
      · cases hstep
      · obtain ⟨pc, -, hstep⟩ := Option.bind_eq_some_iff.mp hstep
        obtain ⟨pc', -, rfl⟩ := Option.map_eq_some_iff.mp hstep
        exact hn.congr rfl
    | onData t buf polled =>
      apply onData_keeps E _ _ _ _ hn hstep
      · exact fun m b hm => hm.congr rfl
      · exact fun m k hm => hm.congr rfl
      · exact fun m r hm => hm.congr rfl
      · exact fun msg len m hm => hm.dispatch t msg len

theorem saysLength_of_run {methodCap pendingCap transportCap : UInt8} {hasSend hasRecv : Nat → Bool}
    {world : ω} {acts : List (Action ω)} {n : Node h ω}
    (hrun : Runs.run (Node.step E)
      (Node.initial h methodCap pendingCap transportCap hasSend hasRecv world) acts = some n) (t : Nat) :
    ∀ x ∈ sendsOn t n.log, SaysLength h.order x.1 := by
  have hinitial : MessagesSay (Node.initial h methodCap pendingCap transportCap hasSend hasRecv world) := by
    intro p hp
    cases hp
  have hn : MessagesSay n := Runs.run_invariant (fun s a s' hs hstep => MessagesSay.step hs hstep) hinitial hrun
  intro x hx
  obtain ⟨e, he, hx⟩ := List.mem_filterMap.mp hx
  cases e with
  | sent t' msg ret =>
    dsimp only at hx
    split at hx
    · cases hx
      exact hn (t', msg) (List.mem_filterMap.mpr ⟨_, he, rfl⟩)
    · cases hx
  | dispatched => cases hx
  | ran => cases hx

/-- After every run, what a transport has accepted is well framed if and only if it took every message
whole or not at all, but perhaps for a last one whose send failed. -/
theorem streamFramed_iff {methodCap pendingCap transportCap : UInt8} {hasSend hasRecv : Nat → Bool}
    {world : ω} {acts : List (Action ω)} {n : Node h ω}
    (hrun : Runs.run (Node.step E)
      (Node.initial h methodCap pendingCap transportCap hasSend hasRecv world) acts = some n) (t : Nat) :
    StreamFramed h.order (sendsOn t n.log) ↔
      ∀ before x after, sendsOn t n.log = before ++ x :: after →
        WholeOrNothing h.order x ∨ after = [] ∧ SendFailed x :=
  streamFramed_iff_wholeOrNothing (saysLength_of_run hrun t)

theorem room_none (b : Bytes) (l : Nat) (hb : none = some b) : none = some l → l ≤ b.length := by
  cases hb

/-- Two calls of the method `e`. -/
def twoCalls : List (Action Unit) :=
  [.bindTransport [0x65] 0, .call ⟨[0x65], [], none, none, room_none⟩,
    .call ⟨[0x65], [], none, none, room_none⟩]

/-- With a transport that takes everything the stream of both requests is well framed. -/
theorem streamFramed_small :
    ∃ n, Runs.run (Node.step Env.granting) freshNode twoCalls = some n ∧
      StreamFramed .little (sendsOn 0 n.log) := by
  have heval : (Runs.run (Node.step Env.granting) freshNode twoCalls).map (fun n => sendsOn 0 n.log) =
      some [([0, 0, 0, 0, 0, 1, 0, 0, 0, 1, 0, 1, 0x65], 13),
        ([0, 0, 0, 0, 0, 2, 0, 0, 0, 1, 0, 1, 0x65], 13)] := by
    decide +kernel
  obtain ⟨n, hrun, hsends⟩ := Option.map_eq_some_iff.mp heval
  refine ⟨n, hrun, (streamFramed_iff hrun 0).mpr ?_⟩
  intro before x after heq
  rw [hsends] at heq
  have hx : x ∈ [([0, 0, 0, 0, 0, 1, 0, 0, 0, 1, 0, 1, 0x65], 13),
      ([0, 0, 0, 0, 0, 2, 0, 0, 0, 1, 0, 1, (0x65 : UInt8)], 13)] := by
    rw [heq]
    simp
  apply Or.inl
  unfold WholeOrNothing
  rcases List.mem_cons.mp hx with rfl | hx
  · rw [if_pos (by decide)]
    exact Or.inr (by decide)
  · rw [List.mem_singleton.mp hx, if_pos (by decide)]
    exact Or.inr (by decide)

/-- A transport that takes five bytes of the first message and all of the next. -/
def Env.shortWrite : Env where
  heapMalloc _ := true
  waiterCreate _ := true
  send k msg := if k = 0 then 5 else msg.length

/-- The second request follows five bytes of the first. -/
theorem shortWrite_unframed :
    ∃ n, Runs.run (Node.step Env.shortWrite) freshNode twoCalls = some n ∧
      ¬ StreamFramed .little (sendsOn 0 n.log) := by
  have heval : (Runs.run (Node.step Env.shortWrite) freshNode twoCalls).map (fun n => sendsOn 0 n.log) =
      some [([0, 0, 0, 0, 0, 1, 0, 0, 0, 1, 0, 1, 0x65], 5),
        ([0, 0, 0, 0, 0, 2, 0, 0, 0, 1, 0, 1, 0x65], 13)] := by
    decide +kernel
  obtain ⟨n, hrun, hsends⟩ := Option.map_eq_some_iff.mp heval
  refine ⟨n, hrun, ?_⟩
  intro hframed
  rw [streamFramed_iff_wholeOrNothing (saysLength_of_run hrun 0), hsends] at hframed
  rcases hframed [] _ _ rfl with hwhole | ⟨hlast, -⟩
  · unfold WholeOrNothing at hwhole
    rw [if_pos (by decide)] at hwhole
    exact absurd hwhole (by decide)
  · cases hlast

end CcRpc
