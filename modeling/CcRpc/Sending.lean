import CcRpc.Dispatching
import CcRpc.Requests
import CcRpc.SendStream

/-!
# What a node logs

The log of a run is made of three kinds of pieces: the request of a call, a message that was dispatched
and called for nothing, and a request that was dispatched with the run of its handler and its response.
-/

namespace CcRpc

variable {h : Host} {ω : Type} {E : Env} {C : Action ω → Prop}

/-- Memory for everything, and transports that take all of each message. -/
structure Env.Reliable (E : Env) : Prop where
  grants : E.Grants
  waits : ∀ k, E.waiterCreate k = true
  takes : ∀ k msg, E.send k msg = msg.length

/-- What follows a dispatched message in the log. -/
inductive Answered (h : Host) (E : Env) (t : Nat) (msg : Bytes) (len : Nat) : List Event → Prop where
  | nothing : Answered h E t msg len []
  /-- It is a request. Its handler may run, and a response may be sent. -/
  | request {req : Request} {ran sent : List Event} (hkind : isResponse h msg = false)
      (hreq : requestOf h msg len = some req)
      (hran : ran = [] ∨ ∃ param, ran = [.ran (cstr req.name) param])
      (hsent : sent = [] ∨ ∃ status tlv k g j, responseMessage h req.seq status tlv k = some g ∧
        sent = [.sent t g (E.send j g)]) : Answered h E t msg len (ran ++ sent)

theorem responseEvents_sent (t : Nat) (seq : UInt32) (status : RpcStatus) (tlv : Option Bytes)
    (k : Nat) (n : Node h ω) :
    responseEvents E t seq status tlv k n = [] ∨ ∃ status' tlv' k' g j,
      responseMessage h seq status' tlv' k' = some g ∧
        responseEvents E t seq status tlv k n = [.sent t g (E.send j g)] := by
  unfold responseEvents
  split
  · cases hmsg : responseMessage h seq status.code tlv k with
    | none => exact .inl rfl
    | some g => exact .inr ⟨_, _, _, g, _, hmsg, rfl⟩
  · exact .inl rfl

theorem rpcHandleRequest_answered (t : Nat) {msg : Bytes} (len : Nat) (n : Node h ω)
    (hkind : isResponse h msg = false) :
    ∃ l, (rpcHandleRequest E t msg len n).log = n.log ++ l ∧ Answered h E t msg len l := by
  cases hreq : requestOf h msg len with
  | none =>
    rw [rpcHandleRequest_of_none hreq]
    exact ⟨[], (List.append_nil _).symm, .nothing⟩
  | some req =>
    cases hget : n.methods.get req.name with
    | none =>
      have hsent := responseEvents_sent (E := E) t req.seq .methodNotFound none 0
        (n.storeMethod req.name)
      have hanswered : Answered h E t msg len ([] ++ responseEvents E t req.seq .methodNotFound none 0
          (n.storeMethod req.name)) := .request hkind hreq (.inl rfl) hsent
      exact ⟨_, rpcHandleRequest_unknown hreq hget, hanswered⟩
    | some m =>
      have hname : cstr (n.storeMethod req.name).method = cstr req.name := cstr_append_zero _ _
      have hevents := beforeResponse_events (E := E) m req (n.storeMethod req.name)
      rw [rpcHandleRequest_found hreq hget]
      generalize beforeResponse E m req (n.storeMethod req.name) = x at hevents
      obtain ⟨encoded, n'⟩ := x
      have hran : ∃ ran, n'.log = n.log ++ ran ∧
          (ran = [] ∨ ∃ param, ran = [.ran (cstr req.name) param]) := by
        rcases hevents with hsame | ⟨-, p, hadded⟩
        · exact ⟨[], hsame.trans (List.append_nil _).symm, .inl rfl⟩
        · rw [hname] at hadded
          exact ⟨_, hadded, .inr ⟨_, rfl⟩⟩
      obtain ⟨ran, hlog, hran⟩ := hran
      cases encoded with
      | none =>
        refine ⟨ran ++ [], ?_, .request hkind hreq hran (.inl rfl)⟩
        rw [List.append_nil]
        exact hlog
      | some encoded =>
        obtain ⟨status, respLen⟩ := encoded
        have hsent := responseEvents_sent (E := E) t req.seq status
          (if status = .ok ∧ 0 < respLen then some n'.respTlv else none)
          (if status = .ok then respLen else 0) n'
        refine ⟨_, ?_, .request hkind hreq hran hsent⟩
        dsimp only
        rw [hlog, List.append_assoc]

theorem rpcDispatchMessage_answered (t : Nat) (msg : Bytes) (len : Nat) (n : Node h ω) :
    ∃ l, (rpcDispatchMessage E t msg len n).log = n.log ++ .dispatched t msg len :: l ∧
      Answered h E t msg len l := by
  have hrecord : (n.record (.dispatched t msg len)).log = n.log ++ [.dispatched t msg len] := rfl
  unfold rpcDispatchMessage
  dsimp only
  split
  · exact ⟨[], hrecord, .nothing⟩
  · by_cases hresp : isResponse h msg = true
    · rw [if_pos hresp]
      refine ⟨[], ?_, .nothing⟩
      rw [← hrecord]
      unfold rpcHandleResponse
      split
      · rfl
      · split
        · rfl
        · split
          · rfl
          · split <;> rfl
    · rw [if_neg hresp]
      obtain ⟨l, hl, hanswered⟩ := rpcHandleRequest_answered (E := E) t len
        (n.record (.dispatched t msg len)) (Bool.eq_false_iff.mpr hresp)
      refine ⟨l, ?_, hanswered⟩
      rw [hl, hrecord, List.append_assoc]
      rfl

/-- A piece of a log. -/
inductive Piece (h : Host) (E : Env) (C : Action ω → Prop) : List Event → Prop where
  /-- A call sends its request. -/
  | call {a : CallArgs} {t : Nat} {seq : UInt32} {f : Bytes} {k : Nat} (hC : C (.call a))
      (hmsg : requestMessage h seq a.name a.tlv = some f) : Piece h E C [.sent t f (E.send k f)]
  | dispatch {t : Nat} {msg : Bytes} {len : Nat} {l : List Event}
      (hl : Answered h E t msg len l) : Piece h E C (.dispatched t msg len :: l)

/-- A log made of such pieces. -/
def Pieces (h : Host) (E : Env) (C : Action ω → Prop) (l : List Event) : Prop :=
  ∃ ps : List (List Event), l = ps.flatten ∧ ∀ p ∈ ps, Piece h E C p

theorem pieces_nil : Pieces h E C [] := ⟨[], rfl, by simp⟩

theorem Piece.pieces {p : List Event} (hp : Piece h E C p) : Pieces h E C p :=
  ⟨[p], by simp, by simpa using hp⟩

theorem Pieces.append {l l' : List Event} (hl : Pieces h E C l) (hl' : Pieces h E C l') :
    Pieces h E C (l ++ l') := by
  obtain ⟨ps, rfl, hps⟩ := hl
  obtain ⟨qs, rfl, hqs⟩ := hl'
  refine ⟨ps ++ qs, List.flatten_append.symm, ?_⟩
  intro p hp
  rcases List.mem_append.mp hp with hp | hp
  · exact hps p hp
  · exact hqs p hp

theorem Pieces.induction {l : List Event} (hl : Pieces h E C l) {P : List Event → Prop} (hnil : P [])
    (happend : ∀ p l, Piece h E C p → P l → P (p ++ l)) : P l := by
  obtain ⟨ps, rfl, hps⟩ := hl
  induction ps with
  | nil => exact hnil
  | cons p ps ih =>
    rw [List.flatten_cons]
    exact happend p _ (hps p (by simp)) (ih fun q hq => hps q (by simp [hq]))

theorem rpcSendRequestTlv_log {t : Nat} {seq : UInt32} {name tlv : Bytes} {n n' : Node h ω} {r : Int}
    (hsend : rpcSendRequestTlv E t seq name tlv n = (r, n')) :
    n'.log = n.log ∧ r = -1 ∨ ∃ f, (n.transports t).hasSend = true ∧
      requestMessage h seq name tlv = some f ∧
        r = intOfSizeT (E.send n.sends f) ∧ n'.log = n.log ++ [.sent t f (E.send n.sends f)] := by
  unfold rpcSendRequestTlv at hsend
  dsimp only [Node.heapMalloc] at hsend
  split at hsend
  · next hcan =>
    split at hsend
    · split at hsend
      · next f hf =>
        cases hsend
        exact .inr ⟨f, hcan, hf, rfl, rfl⟩
      · cases hsend
        exact .inl ⟨rfl, rfl⟩
    · cases hsend
      exact .inl ⟨rfl, rfl⟩
  · cases hsend
    exact .inl ⟨rfl, rfl⟩

theorem FirstSection.pieces {a : CallArgs} {n n' : Node h ω} (hC : C (.call a))
    (hcall : FirstSection E a n n') : ∃ l, n'.log = n.log ++ l ∧ Pieces h E C l := by
  have hsame : n.log = n.log ++ [] := (List.append_nil _).symm
  cases hcall with
  | unbound => exact ⟨[], hsame, pieces_nil⟩
  | refused _ _ _ => exact ⟨[], hsame, pieces_nil⟩
  | faults _ _ _ => exact ⟨[], hsame, pieces_nil⟩
  | unsent _ _ _ hsend _ _ =>
    rcases rpcSendRequestTlv_log hsend with ⟨hlog, -⟩ | ⟨f, -, hf, -, hlog⟩
    · exact ⟨[], hlog.trans hsame, pieces_nil⟩
    · exact ⟨_, hlog, (Piece.call hC hf).pieces⟩
  | sends _ _ _ hsend _ _ =>
    rcases rpcSendRequestTlv_log hsend with ⟨hlog, -⟩ | ⟨f, -, hf, -, hlog⟩
    · exact ⟨[], hlog.trans hsame, pieces_nil⟩
    · exact ⟨_, hlog, (Piece.call hC hf).pieces⟩

theorem Node.Move.pieces {n n' : Node h ω} (hmove : n.Move E C n') :
    ∃ l, n'.log = n.log ++ l ∧ Pieces h E C l := by
  have hsame : n.log = n.log ++ [] := (List.append_nil _).symm
  cases hmove with
  | lock b => exact ⟨[], hsame, pieces_nil⟩
  | malloc k => exact ⟨[], hsame, pieces_nil⟩
  | reasm t r => exact ⟨[], hsame, pieces_nil⟩
  | dispatch t msg len =>
    obtain ⟨l, hl, hanswered⟩ := rpcDispatchMessage_answered (E := E) t msg len n
    exact ⟨_, hl, (Piece.dispatch hanswered).pieces⟩
  | act hC ha hstep =>
    cases Node.step_cases hstep with
    | registerMethod _ _ _ _ => exact ⟨[], hsame, pieces_nil⟩
    | bindTransport _ _ _ => exact ⟨[], hsame, pieces_nil⟩
    | call hcall => exact hcall.pieces hC
    | thread _ _ => exact ⟨[], hsame, pieces_nil⟩
    | finish _ _ => exact ⟨[], hsame, pieces_nil⟩
    | onData _ => exact absurd rfl (ha _ _ _)

theorem Node.Leads.pieces {n n' : Node h ω} (hleads : n.Leads E C n') :
    ∃ l, n'.log = n.log ++ l ∧ Pieces h E C l := by
  induction hleads with
  | refl => exact ⟨[], (List.append_nil _).symm, pieces_nil⟩
  | tail _ hmove ih =>
    obtain ⟨l, hl, hpieces⟩ := ih
    obtain ⟨l', hl', hpieces'⟩ := hmove.pieces
    exact ⟨l ++ l', by rw [hl', hl, List.append_assoc], hpieces.append hpieces'⟩

/-- Every message was handed to a transport once, and this is what it returned. -/
theorem Pieces.taken {l : List Event} (hl : Pieces h E C l) {t : Nat} {msg : Bytes} {ret : Nat}
    (hsent : .sent t msg ret ∈ l) : ∃ k, ret = E.send k msg := by
  revert hsent
  apply hl.induction (P := fun l => .sent t msg ret ∈ l → ∃ k, ret = E.send k msg)
  · simp
  · intro p l hp ih hmem
    rcases List.mem_append.mp hmem with hmem | hmem
    · cases hp with
      | call hC hmsg =>
        rw [List.mem_singleton] at hmem
        cases hmem
        exact ⟨_, rfl⟩
      | dispatch hans =>
        rcases List.mem_cons.mp hmem with heq | hmem
        · cases heq
        · cases hans with
          | nothing => cases hmem
          | request hkind hreq hran hsent =>
            rcases List.mem_append.mp hmem with hmem | hmem
            · rcases hran with rfl | ⟨param, rfl⟩
              · cases hmem
              · rw [List.mem_singleton] at hmem
                cases hmem
            · rcases hsent with rfl | ⟨status, tlv, k, g, j, hg, rfl⟩
              · cases hmem
              · rw [List.mem_singleton] at hmem
                cases hmem
                exact ⟨j, rfl⟩
    · exact ih hmem

end CcRpc
