import CcRpc.Matching
import CcRpc.Timeout

/-!
# What a run of a node receives

On each transport the messages that a node dispatches are the frames of the bytes that arrived there
so far, and what it keeps is their rest, whatever else the node does in between.
-/

namespace CcRpc

variable {h : Host} {ω : Type} {E : Env}

/-- Every `heap_malloc` returns memory. -/
def Env.Grants (E : Env) : Prop := ∀ k, E.heapMalloc k = true

/-- What an action brings in on the transport `t`. -/
def Action.chunk (t : Nat) : Action ω → Bytes
  | .onData t' buf polled => if t' = t then received buf polled else []
  | _ => []

/-- What a list of actions brings in on the transport `t`. -/
def arrived (t : Nat) (acts : List (Action ω)) : Bytes := acts.flatMap (Action.chunk t)

/-- The messages dispatched for the transport `t` in this part of a log. -/
def dispatchedOn (t : Nat) (l : List Event) : List (Bytes × Nat) :=
  l.filterMap fun
    | .dispatched t' msg len => if t' = t then some (msg, len) else none
    | .sent .. | .ran .. => none

@[simp] theorem dispatchedOn_nil (t : Nat) : dispatchedOn t [] = [] := rfl

@[simp] theorem dispatchedOn_append (t : Nat) (l l' : List Event) :
    dispatchedOn t (l ++ l') = dispatchedOn t l ++ dispatchedOn t l' := List.filterMap_append ..

theorem dispatchedOn_quiet {l : List Event} (hl : Quiet l) (t : Nat) : dispatchedOn t l = [] := by
  apply List.filterMap_eq_nil_iff.mpr
  intro e he
  cases e with
  | dispatched t' msg len => exact absurd he (hl t' msg len)
  | sent => rfl
  | ran => rfl

theorem dispatchedOn_cons (t : Nat) (msg : Bytes) (len : Nat) (l : List Event) :
    dispatchedOn t (.dispatched t msg len :: l) = (msg, len) :: dispatchedOn t l := by
  simp [dispatchedOn]

theorem dispatchedOn_cons_ne {t t' : Nat} (ht : t' ≠ t) (msg : Bytes) (len : Nat) (l : List Event) :
    dispatchedOn t (.dispatched t' msg len :: l) = dispatchedOn t l := by
  simp [dispatchedOn, ht]

/-- The log grew, without a dispatch for `t`, and the transport `t` is as it was. -/
structure Node.Apart (t : Nat) (n n' : Node h ω) : Prop where
  log : ∃ l, n'.log = n.log ++ l ∧ dispatchedOn t l = []
  transport : n'.transports t = n.transports t

theorem Node.Apart.of_quiet {t : Nat} {n n' : Node h ω} (hl : ∃ l, n'.log = n.log ++ l ∧ Quiet l)
    (ht : n'.transports = n.transports) : n.Apart t n' := by
  obtain ⟨l, hl, hq⟩ := hl
  exact ⟨⟨l, hl, dispatchedOn_quiet hq t⟩, congrFun ht t⟩

theorem Node.Apart.of_eq {t : Nat} {n n' : Node h ω} (hl : n'.log = n.log)
    (ht : n'.transports = n.transports) : n.Apart t n' :=
  .of_quiet ⟨[], by rw [hl, List.append_nil], quiet_nil⟩ ht

theorem rpcCallWithTlv_transports {a : CallArgs} {n n' : Node h ω}
    (hstep : rpcCallWithTlv E a n = some n') : n'.transports = n.transports := by
  unfold rpcCallWithTlv at hstep
  split at hstep
  · cases hstep
    rfl
  · next t ht =>
    split at hstep
    · cases hstep
    · obtain ⟨⟨seq, m⟩, hseq, rfl⟩ := Option.map_eq_some_iff.mp hstep
      obtain ⟨⟨s, next⟩, -, heq⟩ := Option.map_eq_some_iff.mp hseq
      cases heq
      dsimp only [Node.heapMalloc]
      split
      · rfl
      · split
        · rfl
        · split
          · rfl
          · next pending mallocs hput =>
            have hserve := rpcSendRequestTlv_serves (E := E) t seq a.name a.tlv
              ({ n with nextSeq := next, mallocs := mallocs, waiters := n.waiters + 1,
                        pending := pending } : Node h ω)
            split
            · exact hserve.tables.transports
            · exact hserve.tables.transports

theorem onData_apart {t t' : Nat} (ht : t' ≠ t) {buf polled : Bytes} {n n' : Node h ω}
    (hstep : n.onData E t' buf polled = some n') : n.Apart t n' := by
  apply onData_keeps E (P := n.Apart t) _ _ _ _ _ hstep
  · exact fun m b hm => ⟨hm.log, hm.transport⟩
  · exact fun m k hm => ⟨hm.log, hm.transport⟩
  · intro m r hm
    refine ⟨hm.log, ?_⟩
    rw [← hm.transport]
    exact Function.update_of_ne ht.symm _ _
  · intro msg len m hm
    have hd := rpcDispatchMessage_spec E t' msg len m
    obtain ⟨l, hl, hnone⟩ := hm.log
    obtain ⟨l', hl', hq⟩ := hd.log
    refine ⟨⟨l ++ .dispatched t' msg len :: l', by rw [hl', hl, List.append_assoc], ?_⟩, ?_⟩
    · rw [dispatchedOn_append, hnone, dispatchedOn_cons_ne ht, dispatchedOn_quiet hq]
      rfl
    · rw [congrFun hd.tables.transports t, hm.transport]
  · exact Node.Apart.of_eq rfl rfl

theorem Node.step_apart {t : Nat} {n n' : Node h ω} {a : Action ω} (hstep : n.step E a = some n')
    (ha : ∀ buf polled, a ≠ .onData t buf polled) : n.Apart t n' := by
  have hmove : ∀ (f : Call → Option Call) c, n.stepCall f c = some n' → n.Apart t n' := by
    intro f c hmoved
    obtain ⟨pc, -, hmoved⟩ := Option.bind_eq_some_iff.mp hmoved
    obtain ⟨pc', -, rfl⟩ := Option.map_eq_some_iff.mp hmoved
    exact .of_eq rfl rfl
  unfold Node.step at hstep
  split at hstep
  · cases hstep
  · cases a with
    | registerMethod name m =>
      have hlog := (rpcRegisterMethod_calls hstep).2.2
      apply Node.Apart.of_eq hlog
      change rpcRegisterMethod E name m n = some n' at hstep
      unfold rpcRegisterMethod at hstep
      dsimp only [Node.heapMalloc] at hstep
      split at hstep
      · cases hstep
        rfl
      · split at hstep
        · cases hstep
        · split at hstep <;> cases hstep <;> rfl
    | bindTransport name t' =>
      have hlog := (rpcBindTransport_calls hstep).2.2
      apply Node.Apart.of_eq hlog
      change rpcBindTransport E name t' n = some n' at hstep
      unfold rpcBindTransport at hstep
      dsimp only [Node.heapMalloc] at hstep
      split at hstep
      · cases hstep
        rfl
      · split at hstep
        · cases hstep
        · split at hstep <;> cases hstep <;> rfl
    | call a => exact .of_quiet (rpcCallWithTlv_spec hstep).2 (rpcCallWithTlv_transports hstep)
    | wait c => exact hmove _ c hstep
    | wake c => exact hmove _ c hstep
    | expire c => exact hmove _ c hstep
    | finish c =>
      change n.finishCall c = some n' at hstep
      unfold Node.finishCall at hstep
      split at hstep
      · cases hstep
      · obtain ⟨pc, -, hstep⟩ := Option.bind_eq_some_iff.mp hstep
        obtain ⟨pc', -, rfl⟩ := Option.map_eq_some_iff.mp hstep
        exact .of_eq rfl rfl
    | onData t' buf polled =>
      apply onData_apart _ hstep
      intro ht
      exact ha buf polled (by rw [ht])

theorem Node.step_log {n n' : Node h ω} {a : Action ω} (hstep : n.step E a = some n') :
    ∃ l, n'.log = n.log ++ l := by
  have hother : ∃ t, ∀ buf polled, a ≠ .onData t buf polled := by
    cases a with
    | onData t' buf' polled' =>
      refine ⟨t' + 1, ?_⟩
      intro buf polled heq
      injection heq with heq
      omega
    | _ => exact ⟨0, by intro buf polled heq; cases heq⟩
  obtain ⟨t, ht⟩ := hother
  obtain ⟨l, hl, -⟩ := (n.step_apart hstep ht).log
  exact ⟨l, hl⟩

theorem Node.run_log {n n' : Node h ω} {acts : List (Action ω)}
    (hrun : Runs.run (Node.step E) n acts = some n') : ∃ l, n'.log = n.log ++ l := by
  apply Runs.run_invariant (P := fun m => ∃ l, m.log = n.log ++ l) _ ⟨[], (List.append_nil _).symm⟩ hrun
  intro m a m' hm hstep
  obtain ⟨l, hl⟩ := hm
  obtain ⟨l', hl'⟩ := Node.step_log hstep
  exact ⟨l ++ l', by rw [hl', hl, List.append_assoc]⟩

/-- The node has dispatched the frames of what arrived on the transport and keeps the rest. -/
structure Follows (t : Nat) (past : Bytes) (n : Node h ω) : Prop where
  dispatched : dispatchedOn t n.log = ((wireFraming h.order).frames past).map withLength
  queue : (n.transports t).reasm.bytes = (wireFraming h.order).rest past
  hasRecv : (n.transports t).hasRecv = true

theorem Follows.apart {t : Nat} {past : Bytes} {n n' : Node h ω} (hn : Follows t past n)
    (hapart : n.Apart t n') : Follows t past n' := by
  obtain ⟨l, hl, hnone⟩ := hapart.log
  refine ⟨?_, ?_, ?_⟩
  · rw [hl, dispatchedOn_append, hnone, List.append_nil, hn.dispatched]
  · rw [hapart.transport, hn.queue]
  · rw [hapart.transport, hn.hasRecv]

theorem deliver_dispatched (hE : E.Grants) (t : Nat) (hasRecv : Bool) (polled : Bytes)
    (fs : List Bytes) (n : Node h ω) :
    dispatchedOn t (deliver (Node.ports E t hasRecv polled) fs n).log =
        dispatchedOn t n.log ++ fs.map withLength ∧
      (deliver (Node.ports E t hasRecv polled) fs n).transports = n.transports := by
  induction fs generalizing n with
  | nil => exact ⟨(List.append_nil _).symm, rfl⟩
  | cons f fs ih =>
    have hgranted : ((Node.ports E t hasRecv polled).heapMalloc f.length n).1 = true := hE _
    have hd := rpcDispatchMessage_spec E t f f.length (n.heapMalloc E).2
    obtain ⟨l, hl, hq⟩ := hd.log
    obtain ⟨hlog, htransports⟩ := ih (rpcDispatchMessage E t f f.length (n.heapMalloc E).2)
    unfold deliver
    simp only [hgranted, if_true]
    constructor
    · refine hlog.trans ?_
      rw [hl, dispatchedOn_append, dispatchedOn_cons, dispatchedOn_quiet hq, List.append_assoc]
      rfl
    · exact htransports.trans hd.tables.transports

theorem below_rest {N : Nat} {F : Framing UInt8} {bs cs : Bytes} (hbits : F.Below N (bs ++ cs)) :
    F.Below N (F.rest bs ++ cs) := by
  rw [Framing.Below, Framing.frames_append_bytes, Framing.rest_append_bytes] at hbits
  exact ⟨fun f hf => hbits.1 f (List.mem_append_right _ hf), hbits.2⟩

theorem Follows.onData {t : Nat} {past buf polled : Bytes} {n n' : Node h ω} (hE : E.Grants)
    (hn : Follows t past n)
    (hbits : (wireFraming h.order).Below (2 ^ h.word.bits) (past ++ received buf polled))
    (hstep : n.onData E t buf polled = some n') : Follows t (past ++ received buf polled) n' := by
  unfold Node.onData at hstep
  dsimp only at hstep
  split at hstep
  · cases hstep
  · obtain ⟨⟨r, m⟩, hdata, rfl⟩ := Option.map_eq_some_iff.mp hstep
    rw [hn.hasRecv, rpcOnData_received h rfl] at hdata
    split at hdata
    · next hnone =>
      cases hdata
      rw [List.length_eq_zero_iff.mp hnone, List.append_nil]
      refine ⟨hn.dispatched, ?_, ?_⟩
      · simp [Node.setReasm, Node.ports, hn.queue]
      · simp [Node.setReasm, Node.ports, hn.hasRecv]
    · next hsome =>
      have hdata' : received buf polled ≠ [] := fun hnil => hsome (by rw [hnil]; rfl)
      have hgranted : (chunkNode h (Node.ports E t true polled) (received buf polled) n).1 = true :=
        hE _
      have hqueue : (n.transports t).reasm.bytes ++ received buf polled =
          if (chunkNode h (Node.ports E t true polled) (received buf polled) n).1 then
            (n.transports t).reasm.bytes ++ received buf polled
          else (n.transports t).reasm.bytes := by
        rw [hgranted]
        rfl
      obtain ⟨r', heq, hrest⟩ := rpcOnData_eq h (P := Node.ports E t true polled) rfl hdata'
        (n.transports t).reasm n hqueue (by rw [hn.queue]; exact below_rest hbits)
      rw [heq] at hdata
      cases hdata
      rw [hn.queue] at hrest
      obtain ⟨hlog, htransports⟩ := deliver_dispatched hE t true polled
        ((wireFraming h.order).frames ((n.transports t).reasm.bytes ++ received buf polled))
        (chunkNode h (Node.ports E t true polled) (received buf polled) n).2
      refine ⟨?_, ?_, ?_⟩
      · have hframes := Framing.frames_append_bytes (F := wireFraming h.order) past (received buf polled)
        rw [hframes, List.map_append, ← hn.dispatched, ← hn.queue]
        exact hlog
      · rw [Framing.rest_append_bytes, ← hrest]
        simp [Node.setReasm]
      · have hrecv := congrArg Transport.hasRecv (congrFun htransports t)
        simp only [Node.setReasm, Function.update_self]
        exact hrecv.trans hn.hasRecv

theorem Follows.step {t : Nat} {past : Bytes} {n n' : Node h ω} {a : Action ω} (hE : E.Grants)
    (hn : Follows t past n)
    (hbits : (wireFraming h.order).Below (2 ^ h.word.bits) (past ++ a.chunk t))
    (hstep : n.step E a = some n') : Follows t (past ++ a.chunk t) n' := by
  by_cases ha : ∃ buf polled, a = .onData t buf polled
  · obtain ⟨buf, polled, rfl⟩ := ha
    have hchunk : (Action.onData t buf polled : Action ω).chunk t = received buf polled := if_pos rfl
    rw [hchunk] at hbits ⊢
    unfold Node.step at hstep
    split at hstep
    · cases hstep
    · exact hn.onData hE hbits hstep
  · push Not at ha
    have hchunk : a.chunk t = [] := by
      cases a with
      | onData t' buf polled =>
        apply if_neg
        intro ht
        exact ha buf polled (by rw [ht])
      | _ => rfl
    rw [hchunk, List.append_nil]
    exact hn.apart (n.step_apart hstep ha)

/-- Along a run, what was dispatched for a transport is told by what arrived there. -/
theorem Follows.run {t : Nat} {past : Bytes} {n n' : Node h ω} {acts : List (Action ω)}
    (hE : E.Grants) (hn : Follows t past n)
    (hbits : (wireFraming h.order).Below (2 ^ h.word.bits) (past ++ arrived t acts))
    (hrun : Runs.run (Node.step E) n acts = some n') : Follows t (past ++ arrived t acts) n' := by
  induction acts generalizing n past with
  | nil =>
    cases hrun
    rw [arrived, List.flatMap_nil, List.append_nil]
    exact hn
  | cons a as ih =>
    obtain ⟨m, hstep, hrun⟩ := Runs.run_cons.mp hrun
    have hsplit : past ++ arrived t (a :: as) = (past ++ a.chunk t) ++ arrived t as := by
      rw [arrived, List.flatMap_cons, List.append_assoc]
      rfl
    rw [hsplit] at hbits ⊢
    exact ih (hn.step hE hbits.of_append hstep) hbits hrun

theorem initial_follows (methodCap pendingCap transportCap : UInt8) (hasSend hasRecv : Nat → Bool)
    (world : ω) {t : Nat} (hrecv : hasRecv t = true) :
    Follows t [] (Node.initial h methodCap pendingCap transportCap hasSend hasRecv world) :=
  ⟨rfl, rfl, hrecv⟩

/-- The frame `f` arrives on the transport `t` in the actions `acts`, not before, and the frames
`before` and `after` around it; the host can address each of them. -/
structure FrameArrives (h : Host) (t : Nat) (setup acts : List (Action ω)) (before : List Bytes)
    (f : Bytes) (after : List Bytes) : Prop where
  stream : arrived t setup ++ arrived t acts = (before ++ f :: after).flatten
  frames : ∀ g ∈ before ++ f :: after, (wireFraming h.order).IsFrame g
  addressable : ∀ g ∈ before ++ f :: after, g.length < 2 ^ h.word.bits
  late : (arrived t setup).length < (before ++ [f]).flatten.length

theorem need_nil (o : ByteOrder) : (wireFraming o).need [] = none := rfl

theorem exists_dispatched {t : Nat} {l : List Event} {xs ys : List (Bytes × Nat)} {msg : Bytes}
    {len : Nat} (h : dispatchedOn t l = xs ++ (msg, len) :: ys) :
    ∃ a b, l = a ++ .dispatched t msg len :: b ∧ dispatchedOn t a = xs ∧ dispatchedOn t b = ys := by
  obtain ⟨l₁, l₂, rfl, hxs, hys⟩ := List.filterMap_eq_append_iff.mp h
  obtain ⟨q, e, b, rfl, hq, he, hb⟩ := List.filterMap_eq_cons_iff.mp hys
  have hquiet : dispatchedOn t q = [] := List.filterMap_eq_nil_iff.mpr hq
  cases e with
  | dispatched t' msg' len' =>
    dsimp only at he
    split at he
    · next ht =>
      cases he
      subst ht
      refine ⟨l₁ ++ q, b, by rw [List.append_assoc], ?_, hb⟩
      rw [dispatchedOn_append, hquiet, List.append_nil]
      exact hxs
    · cases he
  | sent => cases he
  | ran => cases he

theorem frames_before {F : Framing UInt8} (hnil : F.need [] = none) {N : Nat}
    {before after : List Bytes} {f piece : Bytes}
    (hframes : ∀ g ∈ before ++ f :: after, F.IsFrame g)
    (hlt : ∀ g ∈ before ++ f :: after, g.length < N)
    (hpiece : piece <+: (before ++ f :: after).flatten)
    (hshort : piece.length < (before ++ [f]).flatten.length) : F.frames piece <+: before := by
  have hfront := (Framing.frames_of_prefix hnil hframes hlt hpiece).1
  rcases List.prefix_or_prefix_of_prefix hfront (List.prefix_append before (f :: after)) with hle | hge
  · exact hle
  · obtain ⟨more, hmore⟩ := hge
    rw [← hmore, List.prefix_append_right_inj] at hfront
    cases more with
    | nil =>
      rw [← hmore, List.append_nil]
    | cons g more =>
      -- then the piece is at least as long as these frames
      have hg := (List.cons_prefix_cons.mp hfront).1
      have hlen := congrArg List.length (Framing.frames_flatten_append_rest (F := F) piece)
      rw [← hmore, hg] at hlen
      simp only [List.flatten_append, List.flatten_cons, List.flatten_nil, List.length_append,
        List.length_nil] at hlen hshort
      omega

/-- It is dispatched once in these actions, after the frames before it and before those after it. -/
theorem FrameArrives.dispatched {t : Nat} {setup acts : List (Action ω)} {before after : List Bytes}
    {f : Bytes} (harr : FrameArrives h t setup acts before f after) (hE : E.Grants)
    {n₀ n n' : Node h ω} (hn₀ : Follows t [] n₀)
    (hsetup : Runs.run (Node.step E) n₀ setup = some n)
    (hrun : Runs.run (Node.step E) n acts = some n') :
    ∃ a b, n'.log = n.log ++ (a ++ .dispatched t f f.length :: b) ∧
      dispatchedOn t (n.log ++ a) = before.map withLength ∧ dispatchedOn t b = after.map withLength := by
  have hfront : arrived t setup ++ arrived t acts <+: (before ++ f :: after).flatten := by
    rw [harr.stream]
  have hbits := (Framing.frames_of_prefix (need_nil _) harr.frames harr.addressable hfront).2
  have hn := hn₀.run hE (by rw [List.nil_append]; exact hbits.of_append) hsetup
  rw [List.nil_append] at hn
  have hn' := (hn.run hE hbits hrun).dispatched
  have hall := Framing.frames_flatten harr.frames []
  rw [List.append_nil, Framing.frames_of_cut_none Framing.cut_nil, List.append_nil] at hall
  rw [harr.stream, hall] at hn'
  obtain ⟨d, hd⟩ := frames_before (need_nil _) harr.frames harr.addressable
    ((List.prefix_append _ _).trans hfront) harr.late
  obtain ⟨l, hl⟩ := Node.run_log hrun
  have hrest : dispatchedOn t l = d.map withLength ++ (f, f.length) :: after.map withLength := by
    rw [hl, dispatchedOn_append, hn.dispatched, ← hd, List.append_assoc, List.map_append,
      List.append_cancel_left_eq, List.map_append, List.map_cons] at hn'
    exact hn'
  obtain ⟨a, b, rfl, ha, hb⟩ := exists_dispatched hrest
  refine ⟨a, b, hl, ?_, hb⟩
  rw [dispatchedOn_append, hn.dispatched, ha, ← List.map_append, hd]

end CcRpc
