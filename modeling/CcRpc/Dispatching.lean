import CcRpc.NodeSteps
import CcRpc.ReceivedStream

/-!
# The moments of a run at which a message is dispatched

One call of `rpc_on_data` may dispatch several messages, and each handler sees what the earlier ones
left. A run is therefore taken apart further than into its steps, so that every dispatch in the log
has the node it happened at.
-/

namespace CcRpc

open Relation

variable {h : Host} {ω : Type} {E : Env} {C : Action ω → Prop}

/-- One move of a node: `rpc_on_data` piece by piece, or another step, of the kind `C`. -/
inductive Node.Move (E : Env) (C : Action ω → Prop) : Node h ω → Node h ω → Prop where
  | lock (n : Node h ω) (b : Bool) : Move E C n { n with locked := b }
  | malloc (n : Node h ω) (k : Nat) : Move E C n { n with mallocs := k }
  | reasm (n : Node h ω) (t : Nat) (r : Reasm) : Move E C n (n.setReasm t r)
  | dispatch (n : Node h ω) (t : Nat) (msg : Bytes) (len : Nat) :
      Move E C n (rpcDispatchMessage E t msg len n)
  | act {n n' : Node h ω} {a : Action ω} (hC : C a) (ha : ∀ t buf polled, a ≠ .onData t buf polled)
      (hstep : n.step E a = some n') : Move E C n n'

/-- The node got from one state to the other. -/
abbrev Node.Leads (E : Env) (C : Action ω → Prop) : Node h ω → Node h ω → Prop :=
  ReflTransGen (Node.Move E C)

theorem Node.Leads.mono {C' : Action ω → Prop} (hC : ∀ a, C a → C' a) {n n' : Node h ω}
    (hleads : n.Leads E C n') : n.Leads E C' n' := by
  have hmoves : ∀ m k : Node h ω, Node.Move E C m k → Node.Move E C' m k := by
    intro m k hmove
    cases hmove with
    | lock b => exact .lock m b
    | malloc j => exact .malloc m j
    | reasm t r => exact .reasm m t r
    | dispatch t msg len => exact .dispatch m t msg len
    | act hact ha hstep => exact .act (hC _ hact) ha hstep
  exact ReflTransGen.mono hmoves n n' hleads

theorem onData_leads {t : Nat} {buf polled : Bytes} {n n' : Node h ω}
    (hstep : n.onData E t buf polled = some n') : n.Leads E C n' := by
  apply onData_keeps E (P := n.Leads E C) _ _ _ _ .refl hstep
  · exact fun m b hm => hm.tail (.lock m b)
  · exact fun m k hm => hm.tail (.malloc m k)
  · exact fun m r hm => hm.tail (.reasm m t r)
  · exact fun msg len m hm => hm.tail (.dispatch m t msg len)

theorem Node.step_leads {n n' : Node h ω} {a : Action ω} (hC : C a) (hstep : n.step E a = some n') :
    n.Leads E C n' := by
  by_cases ha : ∀ t buf polled, a ≠ .onData t buf polled
  · exact .single (.act hC ha hstep)
  · push Not at ha
    obtain ⟨t, buf, polled, rfl⟩ := ha
    unfold Node.step at hstep
    split at hstep
    · cases hstep
    · exact onData_leads hstep

theorem Node.run_leads {n n' : Node h ω} {acts : List (Action ω)} (hC : ∀ a ∈ acts, C a)
    (hrun : Runs.run (Node.step E) n acts = some n') : n.Leads E C n' := by
  induction acts generalizing n with
  | nil =>
    cases hrun
    exact .refl
  | cons a as ih =>
    obtain ⟨m, hstep, hrun⟩ := Runs.run_cons.mp hrun
    have hfirst : n.Leads E C m := n.step_leads (hC a (by simp)) hstep
    exact hfirst.trans (ih (fun b hb => hC b (by simp [hb])) hrun)

theorem Node.Move.log {n n' : Node h ω} (hmove : n.Move E C n') :
    ∃ l, n'.log = n.log ++ l ∧ (Quiet l ∨ ∃ t msg len l',
      n' = rpcDispatchMessage E t msg len n ∧ l = .dispatched t msg len :: l' ∧ Quiet l') := by
  cases hmove with
  | lock b => exact ⟨[], (List.append_nil _).symm, .inl quiet_nil⟩
  | malloc k => exact ⟨[], (List.append_nil _).symm, .inl quiet_nil⟩
  | reasm t r => exact ⟨[], (List.append_nil _).symm, .inl quiet_nil⟩
  | dispatch t msg len =>
    obtain ⟨l, hl, hq⟩ := (rpcDispatchMessage_spec E t msg len n).log
    exact ⟨_, hl, .inr ⟨t, msg, len, l, rfl, rfl, hq⟩⟩
  | act hC ha hstep =>
    obtain ⟨l, hl, hq⟩ := Node.step_quiet hstep ha
    exact ⟨l, hl, .inl hq⟩

theorem Node.Leads.log {n n' : Node h ω} (hleads : n.Leads E C n') : ∃ l, n'.log = n.log ++ l := by
  induction hleads with
  | refl => exact ⟨[], (List.append_nil _).symm⟩
  | tail _ hmove ih =>
    obtain ⟨l, hl⟩ := ih
    obtain ⟨l', hl', -⟩ := hmove.log
    exact ⟨l ++ l', by rw [hl', hl, List.append_assoc]⟩

/-- Every dispatch in the log happened at a node on the way. -/
theorem Node.Leads.dispatching {n n' : Node h ω} (hleads : n.Leads E C n') {a b : List Event} {t : Nat}
    {msg : Bytes} {len : Nat} (hlog : n'.log = n.log ++ (a ++ .dispatched t msg len :: b)) :
    ∃ k, n.Leads E C k ∧ k.log = n.log ++ a ∧ (rpcDispatchMessage E t msg len k).Leads E C n' := by
  induction hleads generalizing b with
  | refl =>
    have hlen := congrArg List.length hlog
    simp only [List.length_append, List.length_cons] at hlen
    omega
  | @tail m n' hbefore hmove ih =>
    obtain ⟨l₀, hl₀⟩ := Node.Leads.log hbefore
    obtain ⟨l, hl, hkind⟩ := hmove.log
    have hsplit : l₀ ++ l = a ++ .dispatched t msg len :: b := by
      rw [hl, hl₀, List.append_assoc, List.append_cancel_left_eq] at hlog
      exact hlog
    rcases List.append_eq_append_iff.mp hsplit with ⟨more, ha, hb⟩ | ⟨more, ha, hb⟩
    · -- it is logged by the last move
      rcases hkind with hq | ⟨t', msg', len', l', rfl, rfl, hq⟩
      · exact absurd (by rw [hb]; simp) (hq t msg len)
      · cases more with
        | nil =>
          rw [List.nil_append, List.cons.injEq, Event.dispatched.injEq] at hb
          obtain ⟨⟨rfl, rfl, rfl⟩, -⟩ := hb
          rw [List.append_nil] at ha
          exact ⟨m, hbefore, by rw [hl₀, ha], .refl⟩
        | cons e more =>
          rw [List.cons_append, List.cons.injEq] at hb
          exact absurd (by rw [hb.2]; simp) (hq t msg len)
    · cases more with
      | nil =>
        rw [List.nil_append] at hb
        rcases hkind with hq | ⟨t', msg', len', l', rfl, rfl, hq⟩
        · exact absurd (by rw [← hb]; simp) (hq t msg len)
        · rw [List.cons.injEq, Event.dispatched.injEq] at hb
          obtain ⟨⟨rfl, rfl, rfl⟩, -⟩ := hb
          rw [List.append_nil] at ha
          exact ⟨m, hbefore, by rw [hl₀, ha], .refl⟩
      | cons e more =>
        rw [List.cons_append, List.cons.injEq] at hb
        obtain ⟨rfl, rfl⟩ := hb
        obtain ⟨k, hk, hklog, hrest⟩ := ih (by rw [hl₀, ha])
        exact ⟨k, hk, hklog, hrest.tail hmove⟩

theorem Node.Leads.methods {n n' : Node h ω} (hleads : n.Leads E C n') {name : Bytes}
    (hC : ∀ x m, C (.registerMethod x m) → cstr x ≠ cstr name) :
    n'.methods.get name = n.methods.get name := by
  induction hleads with
  | refl => rfl
  | tail _ hmove ih =>
    rw [← ih]
    cases hmove with
    | lock b => rfl
    | malloc k => rfl
    | reasm t r => rfl
    | dispatch t msg len => rw [(rpcDispatchMessage_spec E t msg len _).tables.methods]
    | act hact ha hstep => exact Node.step_methods hstep ha fun x m heq => hC x m (heq ▸ hact)

theorem Node.Leads.functions {n n' : Node h ω} (hleads : n.Leads E C n') (t : Nat) :
    (n'.transports t).hasSend = (n.transports t).hasSend ∧
      (n'.transports t).hasRecv = (n.transports t).hasRecv := by
  induction hleads with
  | refl => exact ⟨rfl, rfl⟩
  | tail _ hmove ih =>
    rw [← ih.1, ← ih.2]
    cases hmove with
    | lock b => exact ⟨rfl, rfl⟩
    | malloc k => exact ⟨rfl, rfl⟩
    | reasm t' r =>
      simp only [Node.setReasm, Function.update_apply]
      split
      · next ht =>
        rw [ht]
        exact ⟨rfl, rfl⟩
      · exact ⟨rfl, rfl⟩
    | dispatch t' msg len =>
      rw [(rpcDispatchMessage_spec E t' msg len _).tables.transports]
      exact ⟨rfl, rfl⟩
    | act hact ha hstep =>
      rw [Node.step_transports hstep ha]
      exact ⟨rfl, rfl⟩

end CcRpc
