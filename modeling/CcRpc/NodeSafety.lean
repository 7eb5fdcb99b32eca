import CcRpc.LockBalance
import CcRpc.Sequence
import CcRpc.TameMethods

/-!
# No run of a node goes wrong

With memory for every buffer and methods whose callbacks return, no step of a node does anything
undefined, whatever bytes it receives. After each step every entry of the library can be taken again.
-/

namespace CcRpc

variable {h : Host} {ω : Type} {E : Env}

theorem Node.Safe.congr {n n' : Node h ω} (hn : n.Safe) (hmethods : n'.methods = n.methods)
    (hpending : n'.pending = n.pending) (hcalls : n'.calls = n.calls) (hlog : n'.log = n.log)
    (hok : n'.fault = n.fault) : n'.Safe := by
  refine ⟨hn.sound.congr hpending hcalls hlog, ?_, hok.trans hn.ok, ?_⟩
  · intro name m hget
    rw [hmethods] at hget
    exact hn.methods name m hget
  · rw [hlog]
    exact hn.short

theorem Node.Safe.onData (hE : E.Grants) {n n' : Node h ω} (hn : n.Safe) {t : Nat} {buf polled : Bytes}
    (hbits : (n.transports t).hasRecv = true → (wireFraming h.order).Below (2 ^ h.word.bits)
      ((n.transports t).reasm.bytes ++ received buf polled))
    (hstep : n.onData E t buf polled = some n') : n'.Safe ∧ n.SendsUpTo maxResponse n' := by
  unfold Node.onData at hstep
  dsimp only at hstep
  split at hstep
  · cases hstep
  · obtain ⟨⟨r, m⟩, hdata, rfl⟩ := Option.map_eq_some_iff.mp hstep
    cases hrecv : (n.transports t).hasRecv with
    | false =>
      rw [hrecv] at hdata
      cases hdata
      exact ⟨hn.congr rfl rfl rfl rfl rfl, .of_eq rfl⟩
    | true =>
      have hbits := hbits hrecv
      rw [hrecv, rpcOnData_received h rfl] at hdata
      split at hdata
      · cases hdata
        exact ⟨hn.congr rfl rfl rfl rfl rfl, .of_eq rfl⟩
      · next hsome =>
        have hdata' : received buf polled ≠ [] := fun hnil => hsome (by rw [hnil]; rfl)
        have hgranted : (chunkNode h (Node.ports E t true polled) (received buf polled) n).1 = true :=
          hE _
        have hqueue : (n.transports t).reasm.bytes ++ received buf polled =
            if (chunkNode h (Node.ports E t true polled) (received buf polled) n).1 then
              (n.transports t).reasm.bytes ++ received buf polled
            else (n.transports t).reasm.bytes := by
          rw [hgranted]
          rfl
        obtain ⟨r', heq, -⟩ := rpcOnData_eq h (P := Node.ports E t true polled) rfl hdata'
          (n.transports t).reasm n hqueue hbits
        rw [heq] at hdata
        cases hdata
        have hkept : ∀ k : Node h ω, k.Safe ∧ n.SendsUpTo maxResponse k →
            (deliver (Node.ports E t true polled) ((wireFraming h.order).frames
              ((n.transports t).reasm.bytes ++ received buf polled)) k).Safe ∧
            n.SendsUpTo maxResponse (deliver (Node.ports E t true polled) ((wireFraming h.order).frames
              ((n.transports t).reasm.bytes ++ received buf polled)) k) := by
          intro k hk
          apply deliver_keeps (Q := fun k : Node h ω => k.Safe ∧ n.SendsUpTo maxResponse k) _ _ hk
          · exact fun _ s hs => ⟨hs.1.congr rfl rfl rfl rfl rfl, hs.2.trans (.of_eq rfl)⟩
          · intro f hf s hs
            obtain ⟨hsafe, hsends⟩ := hs.1.dispatch hE t (Framing.isFrame_of_mem_frames hf) (hbits.1 f hf)
            exact ⟨hsafe, hs.2.trans hsends⟩
        obtain ⟨hsafe, hsends⟩ := hkept
          (chunkNode h (Node.ports E t true polled) (received buf polled) n).2
          ⟨hn.congr rfl rfl rfl rfl rfl, .of_eq rfl⟩
        exact ⟨hsafe.congr rfl rfl rfl rfl rfl, hsends.trans (.of_eq rfl)⟩

/-- What an action must be: a method that is registered is tame, and a request is shorter than 4 GiB. -/
def Action.Tame (w : WordSize) : Action ω → Prop
  | .registerMethod _ m => m.Tame w
  | .call a => sizeofRpcHeader + strlen a.name + a.tlv.length < 2 ^ 32
  | _ => True

theorem putEntry_granted {κ ν : Type} {K : HashKey κ} (hE : E.Grants) (m : Hashmap K ν) (key : κ)
    (value : ν) (k : Nat) : ∃ m' j, putEntry E m key value k = (some m', j) := by
  obtain ⟨m', hput⟩ := m.put_true key value
  unfold putEntry
  rw [hE, hput]
  split
  · exact ⟨m', _, rfl⟩
  · exact ⟨m', _, rfl⟩

theorem rpcRegisterMethod_granted (hE : E.Grants) (name : Bytes) (m : MethodEntry ω) {n : Node h ω}
    (hunlocked : n.locked = false) : ∃ methods mallocs,
      rpcRegisterMethod E name m n = some { n with methods := methods, mallocs := mallocs } ∧
        ∀ x, methods.get x = if (stringKey h.word).equal name x then some m else n.methods.get x := by
  obtain ⟨methods, mallocs, hput⟩ := putEntry_granted hE n.methods name m (n.mallocs + 1)
  refine ⟨methods, mallocs, ?_, get_putEntry hput⟩
  unfold rpcRegisterMethod
  simp [Node.heapMalloc, hE n.mallocs, hunlocked, hput]

theorem rpcBindTransport_granted (hE : E.Grants) (name : Bytes) (t : Nat) {n : Node h ω}
    (hunlocked : n.locked = false) : ∃ map mallocs,
      rpcBindTransport E name t n = some { n with transportMap := map, mallocs := mallocs } ∧
        ∀ x, map.get x = if (stringKey h.word).equal name x then some t else n.transportMap.get x := by
  obtain ⟨map, mallocs, hput⟩ := putEntry_granted hE n.transportMap name t (n.mallocs + 1)
  refine ⟨map, mallocs, ?_, get_putEntry hput⟩
  unfold rpcBindTransport
  simp [Node.heapMalloc, hE n.mallocs, hunlocked, hput]

theorem rpcSendRequestTlv_fault {t : Nat} {seq : UInt32} {name tlv : Bytes} (n : Node h ω)
    (hsmall : sizeofRpcHeader + strlen name + tlv.length < 2 ^ 32) :
    (rpcSendRequestTlv E t seq name tlv n).2.fault = n.fault := by
  have hword := h.word.two_pow_le
  have hmsg := requestMessage_eq h seq name tlv
  rw [if_pos (by omega)] at hmsg
  unfold rpcSendRequestTlv
  simp only [Node.heapMalloc, hmsg]
  split
  · split <;> rfl
  · rfl

theorem requestMessage_short {seq : UInt32} {name tlv msg : Bytes}
    (hsmall : sizeofRpcHeader + strlen name + tlv.length < 2 ^ 32)
    (hmsg : requestMessage h seq name tlv = some msg) : msg.length < 2 ^ 32 := by
  rw [requestMessage_eq_some hmsg]
  simp only [List.length_append, RpcHeader.store_length, length_cstr]
  omega

theorem rpcSendRequestTlv_short {t : Nat} {seq : UInt32} {name tlv : Bytes} {n n' : Node h ω} {r : Int}
    (hsmall : sizeofRpcHeader + strlen name + tlv.length < 2 ^ 32)
    (hsend : rpcSendRequestTlv E t seq name tlv n = (r, n')) {t' : Nat} {g : Bytes} {ret : Nat}
    (hmem : .sent t' g ret ∈ n'.log) : .sent t' g ret ∈ n.log ∨ g.length < 2 ^ 32 := by
  rcases rpcSendRequestTlv_log hsend with ⟨hlog, -⟩ | ⟨f, -, hf, -, hlog⟩
  · rw [hlog] at hmem
    exact .inl hmem
  · rw [hlog] at hmem
    rcases List.mem_append.mp hmem with hold | hnew
    · exact .inl hold
    · rw [List.mem_singleton] at hnew
      cases hnew
      exact .inr (requestMessage_short hsmall hf)

theorem rpcCallWithTlv_safe (hE : E.Grants) {a : CallArgs} {n n' : Node h ω}
    (hsmall : sizeofRpcHeader + strlen a.name + a.tlv.length < 2 ^ 32)
    (hstep : rpcCallWithTlv E a n = some n') : n'.fault = n.fault ∧ n'.methods = n.methods ∧
      ∀ t g ret, .sent t g ret ∈ n'.log → .sent t g ret ∈ n.log ∨ g.length < 2 ^ 32 := by
  have hsame : ∀ t g ret, .sent t g ret ∈ n.log → .sent t g ret ∈ n.log ∨ g.length < 2 ^ 32 :=
    fun _ _ _ hmem => .inl hmem
  have hsetup := (rpcCallWithTlv_cases hstep).setup
  refine ⟨?_, hsetup.methods, ?_⟩
  · unfold rpcCallWithTlv at hstep
    split at hstep
    · cases hstep
      rfl
    · next t ht =>
      split at hstep
      · cases hstep
      · obtain ⟨⟨seq, m⟩, hnext, rfl⟩ := Option.map_eq_some_iff.mp hstep
        obtain ⟨⟨s, next⟩, -, heq⟩ := Option.map_eq_some_iff.mp hnext
        cases heq
        obtain ⟨pending, mallocs, hput⟩ :=
          putEntry_granted hE n.pending seq n.calls.length (n.mallocs + 1)
        simp only [Node.heapMalloc, hE n.mallocs, hput, Bool.not_true, Bool.false_eq_true, if_false]
        have hsent (k : Node h ω) : (rpcSendRequestTlv E t seq a.name a.tlv k).2.fault = k.fault :=
          rpcSendRequestTlv_fault k hsmall
        split
        · rfl
        · split
          · exact hsent _
          · exact hsent _
  · cases rpcCallWithTlv_cases hstep with
    | unbound => exact hsame
    | refused _ _ _ => exact hsame
    | faults _ _ _ => exact hsame
    | unsent _ _ _ hsend _ _ => exact fun _ _ _ hmem => rpcSendRequestTlv_short hsmall hsend hmem
    | sends _ _ _ hsend _ _ => exact fun _ _ _ hmem => rpcSendRequestTlv_short hsmall hsend hmem

/-- No step of a safe node is undefined. -/
theorem Node.Safe.step (hE : E.Grants) {n n' : Node h ω} (hn : n.Safe) {a : Action ω} (ha : a.Tame h.word)
    (hbits : ∀ t, (n.transports t).hasRecv = true →
      (wireFraming h.order).Below (2 ^ h.word.bits) ((n.transports t).reasm.bytes ++ a.chunk t))
    (hstep : n.step E a = some n') : n'.Safe := by
  have hsound := hn.sound.step hstep
  have hok := hn.ok
  have hthread : ∀ {f : Call → Option Call} {c : Nat}, n.stepCall f c = some n' → n'.Safe := by
    intro f c hmove
    obtain ⟨pc, pc', -, -, rfl⟩ := Node.stepCall_eq hmove
    exact ⟨hsound, hn.methods, hok, hn.short⟩
  unfold Node.step at hstep
  rw [if_neg (by rw [hok]; exact Bool.false_ne_true)] at hstep
  cases a with
  | registerMethod name m =>
    have hunlocked : n.locked = false := by
      by_contra hlocked
      simp [rpcRegisterMethod, Node.heapMalloc, hE n.mallocs, hlocked] at hstep
    obtain ⟨methods, mallocs, heq, hget⟩ := rpcRegisterMethod_granted hE name m hunlocked
    dsimp only at hstep
    rw [heq] at hstep
    cases hstep
    refine ⟨hsound, ?_, hok, hn.short⟩
    intro x m' hx
    change methods.get x = some m' at hx
    rw [hget] at hx
    split at hx
    · cases hx
      exact ha
    · exact hn.methods x m' hx
  | bindTransport name t =>
    have hunlocked : n.locked = false := by
      by_contra hlocked
      simp [rpcBindTransport, Node.heapMalloc, hE n.mallocs, hlocked] at hstep
    obtain ⟨map, mallocs, heq, -⟩ := rpcBindTransport_granted hE name t hunlocked
    dsimp only at hstep
    rw [heq] at hstep
    cases hstep
    exact ⟨hsound, hn.methods, hok, hn.short⟩
  | call a =>
    obtain ⟨hfault, hmethods, hsent⟩ := rpcCallWithTlv_safe hE ha hstep
    refine ⟨hsound, ?_, hfault.trans hok, ?_⟩
    · intro x m hx
      rw [hmethods] at hx
      exact hn.methods x m hx
    · intro t g ret hmem
      rcases hsent t g ret hmem with hold | hshort
      · exact hn.short t g ret hold
      · exact hshort
  | wait c => exact hthread hstep
  | wake c => exact hthread hstep
  | expire c => exact hthread hstep
  | finish c =>
    obtain ⟨pc, pc', -, -, rfl⟩ := Node.finishCall_eq hstep
    exact ⟨hsound, hn.methods, hok, hn.short⟩
  | onData t buf polled =>
    have hchunk : (Action.onData t buf polled : Action ω).chunk t = received buf polled := if_pos rfl
    have hqueue := hbits t
    rw [hchunk] at hqueue
    exact (hn.onData hE hqueue hstep).1

theorem initial_safe (b : Boot ω) : (b.node h).Safe := by
  refine ⟨initial_sound _ _ _ _ _ _, ?_, rfl, ?_⟩
  · intro name m hget
    rw [show (b.node h).methods.get name = none from rfl] at hget
    cases hget
  · intro t g ret hmem
    cases hmem

/-- The queues of a node's transports are told by what arrived there. -/
def Node.FollowsAll (past : Nat → Bytes) (n : Node h ω) : Prop :=
  ∀ t, (n.transports t).hasRecv = true → Follows t (past t) n

theorem Node.Safe.run (hE : E.Grants) {n n' : Node h ω} (hn : n.Safe) {past : Nat → Bytes}
    (hfollows : n.FollowsAll past) {acts : List (Action ω)} (hacts : ∀ a ∈ acts, a.Tame h.word)
    (hbits : ∀ t, (wireFraming h.order).Below (2 ^ h.word.bits) (past t ++ arrived t acts))
    (hrun : Runs.run (Node.step E) n acts = some n') : n'.Safe := by
  induction acts generalizing n past with
  | nil =>
    cases hrun
    exact hn
  | cons a as ih =>
    obtain ⟨m, hstep, hrun⟩ := Runs.run_cons.mp hrun
    have hsplit : ∀ t, past t ++ arrived t (a :: as) = (past t ++ a.chunk t) ++ arrived t as := by
      intro t
      rw [arrived, List.flatMap_cons, List.append_assoc]
      rfl
    have hbits' : ∀ t, (wireFraming h.order).Below (2 ^ h.word.bits)
        ((past t ++ a.chunk t) ++ arrived t as) := fun t => hsplit t ▸ hbits t
    have hmove : n.Leads E (fun _ => True) m := Node.step_leads trivial hstep
    have hm : m.Safe := by
      apply hn.step hE (hacts a (by simp)) _ hstep
      intro t hrecv
      rw [(hfollows t hrecv).queue]
      exact below_rest (hbits' t).of_append
    apply ih hm _ (fun b hb => hacts b (by simp [hb])) hbits' hrun
    intro t hrecv
    rw [(Node.Leads.functions hmove t).2] at hrecv
    exact (hfollows t hrecv).step hE (hbits' t).of_append hstep

/-- While no transport is polled for nothing, the lock is free between the steps. -/
theorem run_unlocked {acts : List (Action ω)} {n n' : Node h ω} (hn : n.locked = false)
    (hacts : ∀ t, Action.onData t [] [] ∉ acts) (hrun : Runs.run (Node.step E) n acts = some n')
    (hok : n'.fault = false) : n'.locked = false := by
  induction acts generalizing n with
  | nil =>
    cases hrun
    exact hn
  | cons a as ih =>
    obtain ⟨m, hstep, hrun⟩ := Runs.run_cons.mp hrun
    have hmok : m.fault = false := by
      cases as with
      | nil =>
        cases hrun
        exact hok
      | cons b bs =>
        obtain ⟨k, hnext, -⟩ := Runs.run_cons.mp hrun
        exact Node.step_fault hnext
    obtain ⟨calls, htraced⟩ := Node.exists_stepTraced hstep
    have hm : m.locked = false := by
      rcases Node.stepTraced_spec hn htraced hmok with ⟨hpoll, -, -⟩ | ⟨-, hreleases⟩
      · obtain ⟨-, t, -, rfl⟩ := hpoll.cases
        exact absurd (by simp) (hacts t)
      · rw [hreleases.locked, hn]
    exact ih hm (fun t hin => hacts t (by simp [hin])) hrun

/-- With fewer calls than numbers some number is free. -/
theorem PendingOk.exists_free {pending : Hashmap (intKey h.word) Nat} {calls : List Call}
    (hp : PendingOk pending calls) (hfew : calls.length + 1 < 2 ^ 32) :
    ∃ k, k ≠ 0 ∧ pending.get k = none := by
  by_contra htaken
  push Not at htaken
  have hnumber : ∀ i : Fin (2 ^ 32 - 1), (UInt32.ofNat (i + 1)).toNat = i + 1 := by
    intro i
    have hi := i.isLt
    exact UInt32.toNat_ofNat_of_lt' (by change _ < 2 ^ 32; omega)
  have hcall : ∀ i : Fin (2 ^ 32 - 1), ∃ c : Fin calls.length, calls[c].seq.toNat = i + 1 := by
    intro i
    have hne : UInt32.ofNat (i + 1) ≠ 0 := by
      intro hzero
      have hzero' := hnumber i
      rw [hzero] at hzero'
      cases hzero'
    obtain ⟨c, hget⟩ := Option.ne_none_iff_exists'.mp (htaken _ hne)
    obtain ⟨pc, hc, -, hseq⟩ := (hp _ _).mp hget
    obtain ⟨hlt, hpc⟩ := List.getElem?_eq_some_iff.mp hc
    refine ⟨⟨c, hlt⟩, ?_⟩
    change calls[c].seq.toNat = i + 1
    rw [hpc, hseq, hnumber]
  choose f hf using hcall
  have hinj : Function.Injective f := by
    intro i j hij
    have hi := hf i
    rw [hij, hf j] at hi
    exact Fin.ext (by omega)
  have hcard := Fintype.card_le_of_injective f hinj
  simp only [Fintype.card_fin] at hcard
  omega

theorem rpcCallWithTlv_isSome (a : CallArgs) {n : Node h ω} (hunlocked : n.locked = false)
    (hseq : (rpcNextSeq n).isSome) : (rpcCallWithTlv E a n).isSome := by
  unfold rpcCallWithTlv
  split
  · rfl
  · rw [if_neg (by rw [hunlocked]; exact Bool.false_ne_true), Option.isSome_map]
    exact hseq

theorem Node.onData_isSome (hE : E.Grants) {t : Nat} {buf polled : Bytes} {n : Node h ω}
    (hunlocked : n.locked = false)
    (hbits : (n.transports t).hasRecv = true → (wireFraming h.order).Below (2 ^ h.word.bits)
      ((n.transports t).reasm.bytes ++ received buf polled)) : (n.onData E t buf polled).isSome := by
  unfold Node.onData
  dsimp only
  rw [hunlocked, Bool.and_false, if_neg Bool.false_ne_true, Option.isSome_map]
  cases hrecv : (n.transports t).hasRecv with
  | false => rfl
  | true =>
    rw [rpcOnData_received h rfl]
    split
    · rfl
    · next hsome =>
      have hdata : received buf polled ≠ [] := fun hnil => hsome (by rw [hnil]; rfl)
      have hgranted : (chunkNode h (Node.ports E t true polled) (received buf polled) n).1 = true := hE _
      have hqueue : (n.transports t).reasm.bytes ++ received buf polled =
          if (chunkNode h (Node.ports E t true polled) (received buf polled) n).1
          then (n.transports t).reasm.bytes ++ received buf polled else (n.transports t).reasm.bytes := by
        rw [hgranted]
        rfl
      obtain ⟨r', heq, -⟩ := rpcOnData_eq h (P := Node.ports E t true polled) rfl hdata
        (n.transports t).reasm n hqueue (hbits hrecv)
      rw [heq]
      rfl

/-- The next steps that are possible after the bytes `past` arrived on each transport: all that the
program takes on its own account, and any data. -/
structure Node.Open (E : Env) (past : Nat → Bytes) (n : Node h ω) : Prop where
  register : ∀ name m, (n.step E (.registerMethod name m)).isSome
  bind : ∀ name t, (n.step E (.bindTransport name t)).isSome
  call : ∀ a, n.calls.length + 1 < 2 ^ 32 → (n.step E (.call a)).isSome
  data : ∀ t buf polled,
    (wireFraming h.order).Below (2 ^ h.word.bits) (past t ++ received buf polled) →
      (n.step E (.onData t buf polled)).isSome

theorem Node.Safe.isOpen (hE : E.Grants) {n : Node h ω} (hn : n.Safe) (hunlocked : n.locked = false)
    (hseq : n.nextSeq ≠ 0) {past : Nat → Bytes} (hfollows : n.FollowsAll past) : n.Open E past := by
  have hrunning : ¬ n.fault = true := by
    rw [hn.ok]
    exact Bool.false_ne_true
  refine ⟨?_, ?_, ?_, ?_⟩
  · intro name m
    obtain ⟨methods, mallocs, heq, -⟩ := rpcRegisterMethod_granted hE name m hunlocked
    unfold Node.step
    rw [if_neg hrunning]
    dsimp only
    rw [heq]
    rfl
  · intro name t
    obtain ⟨map, mallocs, heq, -⟩ := rpcBindTransport_granted hE name t hunlocked
    unfold Node.step
    rw [if_neg hrunning]
    dsimp only
    rw [heq]
    rfl
  · intro a hfew
    obtain ⟨i, -, -, -, heq⟩ := rpcNextSeq_eq hseq (hn.sound.pending.exists_free hfew)
    rw [Node.step_call_eq hn.ok]
    exact rpcCallWithTlv_isSome a hunlocked (by rw [heq]; rfl)
  · intro t buf polled hbits
    rw [Node.step_onData_eq hn.ok]
    apply Node.onData_isSome hE hunlocked
    intro hrecv
    rw [(hfollows t hrecv).queue]
    exact below_rest hbits

theorem run_open (hE : E.Grants) {b : Boot ω} {acts : List (Action ω)} {n : Node h ω}
    (hacts : ∀ a ∈ acts, a.Tame h.word) (hpolls : ∀ t, .onData t [] [] ∉ acts)
    (hbits : ∀ t, (wireFraming h.order).Below (2 ^ h.word.bits) (arrived t acts))
    (hrun : Runs.run (Node.step E) (b.node h) acts = some n) :
    n.Safe ∧ n.locked = false ∧ n.Open E (fun t => arrived t acts) := by
  have hstart : (b.node h).FollowsAll fun _ => [] := fun t hrecv => initial_follows _ _ _ _ _ _ hrecv
  have hsafe := (initial_safe b).run hE hstart hacts (by simpa using hbits) hrun
  have hunlocked := run_unlocked rfl hpolls hrun hsafe.ok
  have hseq : n.nextSeq ≠ 0 := Runs.run_invariant (P := fun m : Node h ω => m.nextSeq ≠ 0)
    (fun _ _ _ hm hstep => Node.step_nextSeq hm hstep) (initial_nextSeq_ne_zero _ _ _ _ _ _) hrun
  refine ⟨hsafe, hunlocked, hsafe.isOpen hE hunlocked hseq ?_⟩
  intro t hrecv
  have hleads : (b.node h).Leads E (fun _ => True) n := Node.run_leads (fun _ _ => trivial) hrun
  rw [(hleads.functions t).2] at hrecv
  have hall := (hstart t hrecv).run hE (by simpa using hbits t) hrun
  simpa using hall

/-- A node does not go wrong. With memory for every buffer, tame methods, and no transport polled when it
has nothing, whatever bytes arrive: after every run nothing undefined has happened, the port lock is free,
and methods can be registered, transports bound, calls made and data taken in. -/
theorem node_goes_on (hE : E.Grants) {b : Boot ω} {acts : List (Action ω)} {n : Node h ω}
    (hacts : ∀ a ∈ acts, a.Tame h.word) (hpolls : ∀ t, .onData t [] [] ∉ acts)
    (hbits : ∀ t, (wireFraming h.order).Below (2 ^ h.word.bits) (arrived t acts))
    (hrun : Runs.run (Node.step E) (b.node h) acts = some n) :
    n.fault = false ∧ n.locked = false ∧ n.Open E (fun t => arrived t acts) := by
  obtain ⟨hsafe, hunlocked, hopen⟩ := run_open hE hacts hpolls hbits hrun
  exact ⟨hsafe.ok, hunlocked, hopen⟩

/-- A run with a method, a call, and a request that arrives. -/
def incServing : List (Action Unit) :=
  [.registerMethod [0x65] (incProvider.entry ⟨.little, .w64⟩), .bindTransport [0x65] 0,
    .call ⟨[0x65], [], none, none, room_none⟩,
    .onData 0 [0, 0, 0, 0, 0, 1, 0, 0, 0, 8, 0, 1, 0x65, 1, 4, 0, 7, 0, 0, 0] []]

theorem incServing_runs : (Runs.run (Node.step Env.granting) (smallBoot.node ⟨.little, .w64⟩)
    incServing).isSome := by
  decide +kernel

/-- A node that called and served goes on. -/
theorem node_goes_on_small : ∃ n, Runs.run (Node.step Env.granting) (smallBoot.node ⟨.little, .w64⟩)
    incServing = some n ∧ n.fault = false ∧ n.locked = false ∧
      n.Open Env.granting fun t => arrived t incServing := by
  obtain ⟨n, hrun⟩ := Option.isSome_iff_exists.mp incServing_runs
  refine ⟨n, hrun, node_goes_on (fun _ => rfl) ?_ (by simp [incServing])
    (fun t => below_of_w64 rfl _) hrun⟩
  intro a ha
  simp only [incServing, List.mem_cons, List.not_mem_nil, or_false] at ha
  rcases ha with rfl | rfl | rfl | rfl
  · exact Provider.entry_tame (incMethod_fits .w64) incProvider_encodes
  · trivial
  · change sizeofRpcHeader + strlen _ + List.length _ < 2 ^ 32
    decide
  · trivial

end CcRpc
