import CcRpc.Agreement
import CcRpc.NodeSafety

/-!
# The connection empties

Two reliable nodes with tame methods never get stuck, and what is on its way between them can always
arrive. A request that arrives causes one short response and a response nothing, so only so many arrivals
can follow each other, and then everything that was sent has been dispatched.
-/

namespace CcRpc

variable {h h₁ h₂ : Host} {ω ω₁ ω₂ : Type} {E E₁ E₂ : Env} {t t₁ t₂ : Nat} {b : Boot ω} {b₁ : Boot ω₁}
  {b₂ : Boot ω₂}

/-- Two reliable nodes of one byte order that poll the connection, and what they do: tame methods, calls
with names, no transport polled for nothing, and on the other transports no message too long for the
host. -/
structure Orderly (E₁ E₂ : Env) (h₁ h₂ : Host) (t₁ t₂ : Nat) (b₁ : Boot ω₁) (b₂ : Boot ω₂)
    (acts : List (PairAction ω₁ ω₂)) : Prop where
  left : E₁.Reliable
  right : E₂.Reliable
  order : h₁.order = h₂.order
  recvLeft : b₁.hasRecv t₁ = true
  recvRight : b₂.hasRecv t₂ = true
  named : ∀ a ∈ acts, a.Named
  tameLeft : ∀ a, .left a ∈ acts → a.Tame h₁.word
  tameRight : ∀ a, .right a ∈ acts → a.Tame h₂.word
  pollsLeft : ∀ t, .left (.onData t [] []) ∉ acts
  pollsRight : ∀ t, .right (.onData t [] []) ∉ acts
  bitsLeft : ∀ t, (wireFraming h₁.order).Below (2 ^ h₁.word.bits) (otherLeft t acts)
  bitsRight : ∀ t, (wireFraming h₂.order).Below (2 ^ h₂.word.bits) (otherRight t acts)

variable {acts acts' : List (PairAction ω₁ ω₂)} {p p' : Pair h₁ h₂ ω₁ ω₂}

theorem Orderly.before (ord : Orderly E₁ E₂ h₁ h₂ t₁ t₂ b₁ b₂ (acts ++ acts')) :
    Orderly E₁ E₂ h₁ h₂ t₁ t₂ b₁ b₂ acts where
  left := ord.left
  right := ord.right
  order := ord.order
  recvLeft := ord.recvLeft
  recvRight := ord.recvRight
  named a ha := ord.named a (List.mem_append_left _ ha)
  tameLeft a ha := ord.tameLeft a (List.mem_append_left _ ha)
  tameRight a ha := ord.tameRight a (List.mem_append_left _ ha)
  pollsLeft t ha := ord.pollsLeft t (List.mem_append_left _ ha)
  pollsRight t ha := ord.pollsRight t (List.mem_append_left _ ha)
  bitsLeft t := by
    have hbits := ord.bitsLeft t
    rw [otherLeft_append] at hbits
    exact hbits.of_append
  bitsRight t := by
    have hbits := ord.bitsRight t
    rw [otherRight_append] at hbits
    exact hbits.of_append

/-- No queue of the receiver grows past what the host can count, by what is on its way to it or by what
may come in elsewhere. -/
theorem receiver_below (hE : E₂.Grants) {n₁ : Node h₁ ω₁} {n₂ : Node h₂ ω₂} {flight : Bytes}
    (hd : Delivered t₁ t₂ n₁ n₂ flight)
    (hframes : ∀ f ∈ messagesSent t₁ n₁.log, (wireFraming h₂.order).IsFrame f)
    (hshort : ∀ f ∈ messagesSent t₁ n₁.log, f.length < 2 ^ 32) {bs : List (Action ω₂)}
    (hrun : Runs.run (Node.step E₂) (b₂.node h₂) bs = some n₂) {a : Action ω₂}
    (hchunk : a.chunk t₂ <+: flight) {other : Nat → Bytes}
    (hother : ∀ t, t ≠ t₂ → arrived t bs = other t)
    (hbits : ∀ t, t ≠ t₂ → (wireFraming h₂.order).Below (2 ^ h₂.word.bits) (other t ++ a.chunk t)) :
    ∀ t, (n₂.transports t).hasRecv = true →
      (wireFraming h₂.order).Below (2 ^ h₂.word.bits) ((n₂.transports t).reasm.bytes ++ a.chunk t) := by
  intro t hrecv
  by_cases ht : t = t₂
  · subst ht
    obtain ⟨ms, later, hsent, -, hflat, -⟩ := hd
    have hlater : ∀ f ∈ later, f ∈ messagesSent t₁ n₁.log := by
      intro f hf
      rw [hsent]
      exact List.mem_append_right _ hf
    have hword := h₂.word.two_pow_le
    have harrived : (n₂.transports t).reasm.bytes ++ a.chunk t <+: later.flatten := by
      rw [← hflat]
      exact (List.prefix_append_right_inj _).mpr hchunk
    apply (Framing.frames_of_prefix (need_nil _) _ _ harrived).2
    · exact fun f hf => hframes f (hlater f hf)
    · exact fun f hf => (hshort f (hlater f hf)).trans_le hword
  · have hleads : (b₂.node h₂).Leads E₂ (fun _ => True) n₂ := Node.run_leads (fun _ _ => trivial) hrun
    rw [(hleads.functions t).2] at hrecv
    have hstart : Follows t [] (b₂.node h₂) := initial_follows _ _ _ _ _ _ hrecv
    have hall := hbits t ht
    have hqueue := (hstart.run hE (by
      rw [List.nil_append, hother t ht]
      exact hall.of_append) hrun).queue
    rw [hqueue, List.nil_append, hother t ht]
    exact below_rest hall

theorem Node.Safe.sizes {n : Node h ω} (hn : n.Safe) :
    ∀ msg ∈ messagesSent t n.log, msg.length < 2 ^ 32 := by
  intro msg hmsg
  obtain ⟨ret, hmem⟩ := mem_messagesSent.mp hmsg
  exact hn.short t msg ret hmem

theorem arrival_tame (t : Nat) (data : Bytes) (polled : Bool) (w : WordSize) :
    (arrival t data polled : Action ω).Tame w := by
  cases polled <;> trivial

theorem Orderly.safe (ord : Orderly E₁ E₂ h₁ h₂ t₁ t₂ b₁ b₂ acts)
    (hrun : Runs.run (Pair.step E₁ E₂ t₁ t₂) (Pair.initial h₁ h₂ b₁ b₂) acts = some p) :
    p.left.Safe ∧ p.right.Safe := by
  induction acts using List.reverseRecOn generalizing p with
  | nil =>
    cases hrun
    exact ⟨initial_safe b₁, initial_safe b₂⟩
  | append_singleton acts a ih =>
    obtain ⟨m, hm, hlast⟩ := Runs.run_append.mp hrun
    obtain ⟨p', hstep, heq⟩ := Runs.run_cons.mp hlast
    cases heq
    obtain ⟨hleft, hright⟩ := ih ord.before hm
    obtain ⟨as, bs, hbetween⟩ := Pair.run_between hm
    obtain ⟨htoRight, htoLeft⟩ := hbetween.delivers ord.left ord.right ord.order ord.recvLeft
      ord.recvRight hleft.sizes hright.sizes
    have hframes₁ := run_frames (t := t₁) hbetween.left hleft.sizes
    have hframes₂ := run_frames (t := t₂) hbetween.right hright.sizes
    rw [ord.order] at hframes₁
    rw [← ord.order] at hframes₂
    -- a step of either node keeps it safe
    have hstepLeft : ∀ {a' : Action ω₁} {n : Node h₁ ω₁}, a'.Tame h₁.word → a'.chunk t₁ <+: m.toLeft →
        (∀ t, t ≠ t₁ → a'.chunk t = otherLeft t [a]) → m.left.step E₁ a' = some n → n.Safe := by
      intro a' n htame hchunk hother hn
      apply hleft.step ord.left.grants htame _ hn
      apply receiver_below ord.left.grants htoLeft hframes₂ hright.sizes hbetween.left hchunk
        hbetween.otherLeft
      intro t ht
      rw [hother t ht, ← otherLeft_append]
      exact ord.bitsLeft t
    have hstepRight : ∀ {a' : Action ω₂} {n : Node h₂ ω₂}, a'.Tame h₂.word → a'.chunk t₂ <+: m.toRight →
        (∀ t, t ≠ t₂ → a'.chunk t = otherRight t [a]) → m.right.step E₂ a' = some n → n.Safe := by
      intro a' n htame hchunk hother hn
      apply hright.step ord.right.grants htame _ hn
      apply receiver_below ord.right.grants htoRight hframes₁ hleft.sizes hbetween.right hchunk
        hbetween.otherRight
      intro t ht
      rw [hother t ht, ← otherRight_append]
      exact ord.bitsRight t
    cases a with
    | left a =>
      rw [Pair.step] at hstep
      split at hstep
      · cases hstep
      · next hreads =>
        have hnone := chunk_of_reads (Bool.eq_false_iff.mpr hreads)
        obtain ⟨n, hn, rfl⟩ := Option.map_eq_some_iff.mp hstep
        refine ⟨hstepLeft (ord.tameLeft a (by simp)) ?_ ?_ hn, hright⟩
        · rw [hnone]
          exact List.nil_prefix
        · exact fun t _ => (arrived_singleton t a).symm
    | right a =>
      rw [Pair.step] at hstep
      split at hstep
      · cases hstep
      · next hreads =>
        have hnone := chunk_of_reads (Bool.eq_false_iff.mpr hreads)
        obtain ⟨n, hn, rfl⟩ := Option.map_eq_some_iff.mp hstep
        refine ⟨hleft, hstepRight (ord.tameRight a (by simp)) ?_ ?_ hn⟩
        · rw [hnone]
          exact List.nil_prefix
        · exact fun t _ => (arrived_singleton t a).symm
    | arriveRight k polled =>
      rw [Pair.step] at hstep
      split at hstep
      · next hk =>
        obtain ⟨n, hn, rfl⟩ := Option.map_eq_some_iff.mp hstep
        refine ⟨hleft, hstepRight (arrival_tame _ _ _ _) ?_ ?_ hn⟩
        · rw [chunk_arrival t₂ (take_ne_nil hk)]
          exact List.take_prefix k _
        · exact fun t ht => chunk_arrival_other ht _ _
      · cases hstep
    | arriveLeft k polled =>
      rw [Pair.step] at hstep
      split at hstep
      · next hk =>
        obtain ⟨n, hn, rfl⟩ := Option.map_eq_some_iff.mp hstep
        refine ⟨hstepLeft (arrival_tame _ _ _ _) ?_ ?_ hn, hright⟩
        · rw [chunk_arrival t₁ (take_ne_nil hk)]
          exact List.take_prefix k _
        · exact fun t ht => chunk_arrival_other ht _ _
      · cases hstep

theorem Orderly.conversation (ord : Orderly E₁ E₂ h₁ h₂ t₁ t₂ b₁ b₂ acts)
    (hrun : Runs.run (Pair.step E₁ E₂ t₁ t₂) (Pair.initial h₁ h₂ b₁ b₂) acts = some p) :
    Conversation E₁ E₂ t₁ t₂ b₁ b₂ acts p := by
  obtain ⟨hleft, hright⟩ := ord.safe hrun
  exact ⟨ord.left, ord.right, ord.order, ord.recvLeft, ord.recvRight, ord.named, hrun, hleft.sizes,
    hright.sizes⟩

theorem Orderly.unlocked (ord : Orderly E₁ E₂ h₁ h₂ t₁ t₂ b₁ b₂ acts)
    (hrun : Runs.run (Pair.step E₁ E₂ t₁ t₂) (Pair.initial h₁ h₂ b₁ b₂) acts = some p) :
    p.left.locked = false ∧ p.right.locked = false := by
  obtain ⟨hleft, hright⟩ := ord.safe hrun
  obtain ⟨as, bs, hbetween⟩ := Pair.run_between hrun
  have hstart₁ : (b₁.node h₁).locked = false := rfl
  have hstart₂ : (b₂.node h₂).locked = false := rfl
  constructor
  · apply run_unlocked hstart₁ _ hbetween.left hleft.ok
    exact fun t hin => (hbetween.leftActs _ hin).not_empty ord.pollsLeft t rfl
  · apply run_unlocked hstart₂ _ hbetween.right hright.ok
    exact fun t hin => (hbetween.rightActs _ hin).not_empty ord.pollsRight t rfl

theorem Pieces.no_requests {l : List Event} (hl : Pieces h E (fun _ : Action ω => False) l) :
    requestSeqs h.order (messagesSent t l) = [] := by
  apply hl.induction (P := fun l => requestSeqs h.order (messagesSent t l) = []) rfl
  intro p l hp ih
  rw [messagesSent_append, requestSeqs_append, ih, List.append_nil]
  cases hp with
  | call hC _ => exact hC.elim
  | @dispatch t' msg len l' hans =>
    change requestSeqs h.order (messagesSent t l') = []
    cases hans with
    | nothing => rfl
    | @request req ran sent hkind hreq hran hsent =>
      have hran' : messagesSent t ran = [] := by
        rcases hran with rfl | ⟨param, rfl⟩ <;> rfl
      rw [messagesSent_append, hran', List.nil_append]
      rcases hsent with rfl | ⟨status, tlv, k, g, j, hg, rfl⟩
      · rfl
      · rw [messagesSent_singleton]
        split
        · simp [requestSeqs, (response_header hg).1]
        · rfl

theorem length_requests_add_responses (o : ByteOrder) (ms : List Bytes) :
    (requestSeqs o ms).length + (responseSeqs o ms).length = ms.length := by
  unfold requestSeqs responseSeqs
  rw [List.length_map, List.length_map]
  exact (List.length_eq_length_filter_add (hasMethod o)).symm

theorem length_flatten_le {ms : List Bytes} {N : Nat} (hms : ∀ f ∈ ms, f.length ≤ N) :
    ms.flatten.length ≤ N * ms.length := by
  induction ms with
  | nil => exact Nat.zero_le _
  | cons f fs ih =>
    have hf := hms f (by simp)
    have hfs := ih fun g hg => hms g (by simp [hg])
    rw [List.flatten_cons, List.length_append, List.length_cons, Nat.mul_succ]
    omega

/-- What arrives causes at most one response of at most `maxResponse` bytes for each request in it. -/
theorem Node.Safe.onData_responds (hE : E.Reliable) {n n' : Node h ω} (hn : n.Safe) {buf polled : Bytes}
    (hbits : (n.transports t).hasRecv = true → (wireFraming h.order).Below (2 ^ h.word.bits)
      ((n.transports t).reasm.bytes ++ received buf polled))
    (hstep : n.onData E t buf polled = some n') :
    ∃ l, n'.log = n.log ++ l ∧ requestSeqs h.order (messagesSent t l) = [] ∧
      (written t n n').length ≤ maxResponse * (requestSeqs h.order (messagesTaken t l)).length := by
  have hleads : n.Leads E (fun _ => False) n' := onData_leads hstep
  obtain ⟨l, hl, hpieces⟩ := Node.Leads.pieces hleads
  obtain ⟨l', hl', hshort⟩ := (hn.onData hE.grants hbits hstep).2
  rw [hl', List.append_cancel_left_eq] at hl
  subst hl
  have hnone := hpieces.no_requests (t := t)
  have hcount := length_requests_add_responses h.order (messagesSent t l')
  rw [hnone] at hcount
  have hfew := (hpieces.responses (t := t) fun a ha => ha.elim).length_le
  have htaken : ∀ x ∈ sendsOn t l', x.2 = x.1.length := by
    intro x hx
    obtain ⟨msg, ret⟩ := x
    obtain ⟨k, hk⟩ := hpieces.taken (mem_sendsOn.mp hx)
    exact hk.trans (hE.takes k msg)
  have hsizes : ∀ g ∈ messagesSent t l', g.length ≤ maxResponse := by
    intro g hg
    obtain ⟨ret, hmem⟩ := mem_messagesSent.mp hg
    exact hshort t g ret hmem
  refine ⟨l', hl', hnone, ?_⟩
  rw [written_append hl', stream_eq_flatten htaken]
  refine (length_flatten_le hsizes).trans (Nat.mul_le_mul_left _ ?_)
  rw [List.length_nil, Nat.zero_add] at hcount
  rw [← hcount]
  exact hfew

/-- The requests that `n₁` sent and `n₂` has not dispatched. -/
def unserved (o : ByteOrder) (t₁ t₂ : Nat) (n₁ : Node h₁ ω₁) (n₂ : Node h₂ ω₂) : Nat :=
  (requestSeqs o (messagesSent t₁ n₁.log)).length - (requestSeqs o (messagesTaken t₂ n₂.log)).length

/-- How many arrivals can follow each other at most. -/
def Pair.backlog (t₁ t₂ : Nat) (p : Pair h₁ h₂ ω₁ ω₂) : Nat :=
  p.toRight.length + maxResponse * unserved h₂.order t₁ t₂ p.left p.right +
    (p.toLeft.length + maxResponse * unserved h₁.order t₂ t₁ p.right p.left)

def PairAction.Arrives : PairAction ω₁ ω₂ → Prop
  | .arriveRight _ _ | .arriveLeft _ _ => True
  | _ => False

/-- Something is on its way that arrives by this action. -/
def Pair.Brings (p : Pair h₁ h₂ ω₁ ω₂) : PairAction ω₁ ω₂ → Prop
  | .arriveRight k _ => 0 < k ∧ k ≤ p.toRight.length
  | .arriveLeft k _ => 0 < k ∧ k ≤ p.toLeft.length
  | _ => False

theorem Pair.Brings.arrives {a : PairAction ω₁ ω₂} (ha : p.Brings a) : a.Arrives := by
  cases a with
  | left a => exact ha
  | right a => exact ha
  | arriveRight k polled => trivial
  | arriveLeft k polled => trivial

theorem Pair.step_brings {a : PairAction ω₁ ω₂} (ha : a.Arrives)
    (hstep : p.step E₁ E₂ t₁ t₂ a = some p') : p.Brings a := by
  cases a with
  | left a => exact ha
  | right a => exact ha
  | arriveRight k polled =>
    rw [Pair.step] at hstep
    split at hstep
    · next hk => exact hk
    · cases hstep
  | arriveLeft k polled =>
    rw [Pair.step] at hstep
    split at hstep
    · next hk => exact hk
    · cases hstep

theorem Orderly.append_arrivals (ord : Orderly E₁ E₂ h₁ h₂ t₁ t₂ b₁ b₂ acts)
    (harr : ∀ a ∈ acts', a.Arrives) : Orderly E₁ E₂ h₁ h₂ t₁ t₂ b₁ b₂ (acts ++ acts') := by
  have hleft : ∀ a, .left a ∉ acts' := fun a ha => harr _ ha
  have hright : ∀ a, .right a ∉ acts' := fun a ha => harr _ ha
  have hnoneLeft : ∀ t, otherLeft t acts' = [] := by
    intro t
    apply congrArg (arrived t) (List.filterMap_eq_nil_iff.mpr _)
    intro a ha
    cases a with
    | left a => exact absurd ha (hleft a)
    | _ => rfl
  have hnoneRight : ∀ t, otherRight t acts' = [] := by
    intro t
    apply congrArg (arrived t) (List.filterMap_eq_nil_iff.mpr _)
    intro a ha
    cases a with
    | right a => exact absurd ha (hright a)
    | _ => rfl
  refine ⟨ord.left, ord.right, ord.order, ord.recvLeft, ord.recvRight, ?_, ?_, ?_, ?_, ?_, ?_, ?_⟩
  · intro a ha
    rcases List.mem_append.mp ha with ha | ha
    · exact ord.named a ha
    · cases a with
      | left a => exact absurd ha (hleft a)
      | right a => exact absurd ha (hright a)
      | _ => trivial
  · intro a ha
    exact ord.tameLeft a ((List.mem_append.mp ha).resolve_right (hleft a))
  · intro a ha
    exact ord.tameRight a ((List.mem_append.mp ha).resolve_right (hright a))
  · intro t ha
    exact ord.pollsLeft t ((List.mem_append.mp ha).resolve_right (hleft _))
  · intro t ha
    exact ord.pollsRight t ((List.mem_append.mp ha).resolve_right (hright _))
  · intro t
    rw [otherLeft_append, hnoneLeft, List.append_nil]
    exact ord.bitsLeft t
  · intro t
    rw [otherRight_append, hnoneRight, List.append_nil]
    exact ord.bitsRight t

theorem Delivered.requests_le {o : ByteOrder} {n₁ : Node h₁ ω₁} {n₂ : Node h₂ ω₂} {flight : Bytes}
    (hd : Delivered t₁ t₂ n₁ n₂ flight) :
    (requestSeqs o (messagesTaken t₂ n₂.log)).length ≤
      (requestSeqs o (messagesSent t₁ n₁.log)).length :=
  (requestSeqs_isPrefix hd.taken_isPrefix).length_le

theorem arrival_received (t : Nat) {data : Bytes} (hdata : data ≠ []) (polled : Bool) :
    ∃ buf polled', (arrival t data polled : Action ω) = .onData t buf polled' ∧
      received buf polled' = data := by
  have hchunk := chunk_arrival (ω := ω) t hdata polled
  cases polled with
  | false => exact ⟨data, [], rfl, by simpa [arrival, Action.chunk] using hchunk⟩
  | true => exact ⟨[], data, rfl, rfl⟩

theorem Node.Safe.takes_in {t' : Nat} (hE : E.Reliable) {n : Node h ω} (hn : n.Safe) (hunlocked : n.locked = false)
    {data : Bytes} (hdata : data ≠ []) (polled : Bool)
    (hbits : ∀ t, (n.transports t).hasRecv = true → (wireFraming h.order).Below (2 ^ h.word.bits)
      ((n.transports t).reasm.bytes ++ (arrival t' data polled : Action ω).chunk t)) :
    ∃ n' l, n.step E (arrival t' data polled) = some n' ∧ n'.log = n.log ++ l ∧
      requestSeqs h.order (messagesSent t' l) = [] ∧
      (written t' n n').length ≤ maxResponse * (requestSeqs h.order (messagesTaken t' l)).length := by
  obtain ⟨buf, polled', heq, hreceived⟩ := arrival_received (ω := ω) t' hdata polled
  have hbits' := hbits t'
  rw [chunk_arrival t' hdata, ← hreceived] at hbits'
  obtain ⟨n', hn'⟩ := Option.isSome_iff_exists.mp (Node.onData_isSome hE.grants hunlocked hbits')
  obtain ⟨l, hl, hnone, hshort⟩ := hn.onData_responds hE hbits' hn'
  refine ⟨n', l, ?_, hl, hnone, hshort⟩
  rw [heq, Node.step, if_neg (by rw [hn.ok]; exact Bool.false_ne_true)]
  exact hn'

theorem receiver_takes (hE : E₂.Reliable) {n₁ : Node h₁ ω₁} {n₂ : Node h₂ ω₂} {flight : Bytes}
    (hd : Delivered t₁ t₂ n₁ n₂ flight) (horder : h₁.order = h₂.order) (hn₁ : n₁.Safe) (hn₂ : n₂.Safe)
    (hunlocked : n₂.locked = false) {as : List (Action ω₁)} {bs : List (Action ω₂)}
    (hrun₁ : Runs.run (Node.step E₁) (b₁.node h₁) as = some n₁)
    (hrun₂ : Runs.run (Node.step E₂) (b₂.node h₂) bs = some n₂) {other : Nat → Bytes}
    (hother : ∀ t, t ≠ t₂ → arrived t bs = other t)
    (hbits : ∀ t, (wireFraming h₂.order).Below (2 ^ h₂.word.bits) (other t)) {k : Nat}
    (hk : 0 < k ∧ k ≤ flight.length) (polled : Bool) :
    ∃ n l, n₂.step E₂ (arrival t₂ (flight.take k) polled) = some n ∧ n.log = n₂.log ++ l ∧
      requestSeqs h₂.order (messagesSent t₂ l) = [] ∧
      (written t₂ n₂ n).length ≤ maxResponse * (requestSeqs h₂.order (messagesTaken t₂ l)).length := by
  have hframes := run_frames (t := t₁) hrun₁ hn₁.sizes
  rw [horder] at hframes
  apply hn₂.takes_in hE hunlocked (take_ne_nil hk)
  apply receiver_below hE.grants hd hframes hn₁.sizes hrun₂ _ hother
  · intro t ht
    rw [chunk_arrival_other ht, List.append_nil]
    exact hbits t
  · rw [chunk_arrival t₂ (take_ne_nil hk)]
    exact List.take_prefix k _

/-- The requests in an arrival pay for their responses. -/
theorem backlog_lt {N a k w s q r : Nat} (hk : 0 < k ∧ k ≤ a) (hw : w ≤ N * r) (hserved : q + r ≤ s) :
    (a - k) + N * (s - (q + r)) + w < a + N * (s - q) := by
  have hsplit : s - q = s - (q + r) + r := by omega
  rw [hsplit, Nat.mul_add N _ r]
  omega

theorem Stores.length_eq {n : Node h ω} {msg : Bytes} {len : Nat} {calls : List Call}
    (hcalls : Stores n msg len calls) : calls.length = n.calls.length := by
  cases hcalls with
  | same => rfl
  | stored _ _ _ _ => exact List.length_set

/-- Arrivals on one transport add no call, and dispatch nothing on the others. -/
theorem arrivals_keep {n n' : Node h ω} {as : List (Action ω)}
    (has : ∀ a ∈ as, ∃ data polled, a = arrival t data polled)
    (hrun : Runs.run (Node.step E) n as = some n') : n'.calls.length = n.calls.length ∧
      ∀ t' msg len, t' ≠ t → .dispatched t' msg len ∈ n'.log → .dispatched t' msg len ∈ n.log := by
  induction as generalizing n with
  | nil =>
    cases hrun
    exact ⟨rfl, fun _ _ _ _ hmem => hmem⟩
  | cons a as ih =>
    obtain ⟨m, hstep, hrun⟩ := Runs.run_cons.mp hrun
    obtain ⟨hlen, hlog⟩ := ih (fun c hc => has c (by simp [hc])) hrun
    obtain ⟨data, polled, rfl⟩ := has a (by simp)
    obtain ⟨buf, polled', heq⟩ : ∃ buf polled', (arrival t data polled : Action ω) = .onData t buf polled' := by
      cases polled with
      | false => exact ⟨data, [], rfl⟩
      | true => exact ⟨[], data, rfl⟩
    rw [heq] at hstep
    constructor
    · rw [hlen]
      have hdata := hstep
      rw [Node.step, if_neg (by rw [Node.step_fault hstep]; exact Bool.false_ne_true)] at hdata
      apply onData_keeps E (P := fun k : Node h ω => k.calls.length = n.calls.length) _ _ _ _ rfl hdata
      · exact fun _ _ hk => hk
      · exact fun _ _ hk => hk
      · exact fun _ _ hk => hk
      · intro msg len k hk
        rw [← hk]
        exact (rpcDispatchMessage_spec E t msg len k).calls.length_eq
    · intro t' msg len ht hmem
      have hapart := Node.step_apart hstep (t := t') (by
        intro buf polled heq
        cases heq
        exact ht rfl)
      obtain ⟨l, hl, hnone⟩ := hapart.log
      have hold := hlog t' msg len ht hmem
      rw [hl] at hold
      rcases List.mem_append.mp hold with hold | hnew
      · exact hold
      · have hin : (msg, len) ∈ dispatchedOn t' l := List.mem_filterMap.mpr ⟨_, hnew, by simp⟩
        rw [hnone] at hin
        cases hin

section Run

variable (ord : Orderly E₁ E₂ h₁ h₂ t₁ t₂ b₁ b₂ acts)
  (hrun : Runs.run (Pair.step E₁ E₂ t₁ t₂) (Pair.initial h₁ h₂ b₁ b₂) acts = some p)

include ord hrun

theorem Orderly.delivered : Delivered t₁ t₂ p.left p.right p.toRight ∧
    Delivered t₂ t₁ p.right p.left p.toLeft :=
  (ord.conversation hrun).delivers

/-- What is on its way can arrive, in either direction, and leaves less to do. -/
theorem Orderly.arrive {a : PairAction ω₁ ω₂} (ha : p.Brings a) :
    ∃ p', p.step E₁ E₂ t₁ t₂ a = some p' ∧ p'.backlog t₁ t₂ < p.backlog t₁ t₂ := by
  obtain ⟨hleft, hright⟩ := ord.safe hrun
  obtain ⟨hfreeLeft, hfreeRight⟩ := ord.unlocked hrun
  obtain ⟨htoRight, htoLeft⟩ := ord.delivered hrun
  obtain ⟨as, bs, hbetween⟩ := Pair.run_between hrun
  have hsingle : ∀ c ∈ [a], c.Arrives := by simpa using ha.arrives
  have hlast : ∀ {p' : Pair h₁ h₂ ω₁ ω₂}, p.step E₁ E₂ t₁ t₂ a = some p' →
      Delivered t₁ t₂ p'.left p'.right p'.toRight ∧ Delivered t₂ t₁ p'.right p'.left p'.toLeft := by
    intro p' hnext
    have hone : Runs.run (Pair.step E₁ E₂ t₁ t₂) p [a] = some p' :=
      Runs.run_cons.mpr ⟨_, hnext, rfl⟩
    exact (ord.append_arrivals hsingle).delivered (Runs.run_append.mpr ⟨_, hrun, hone⟩)
  cases a with
  | left a => exact ha.elim
  | right a => exact ha.elim
  | arriveRight k polled =>
    have hk : 0 < k ∧ k ≤ p.toRight.length := ha
    obtain ⟨n, l, hstep, hl, hnone, hshort⟩ := receiver_takes ord.right htoRight ord.order hleft hright
      hfreeRight hbetween.left hbetween.right hbetween.otherRight ord.bitsRight hk polled
    have hnext : p.step E₁ E₂ t₁ t₂ (.arriveRight k polled) = some { p with
        toRight := p.toRight.drop k, right := n, toLeft := p.toLeft ++ written t₂ p.right n } := by
      rw [Pair.step, if_pos hk, Pair.stepRight]
      dsimp only
      rw [hstep]
      rfl
    refine ⟨_, hnext, ?_⟩
    have hserved := (hlast hnext).1.requests_le (o := h₂.order)
    have hasked : requestSeqs h₁.order (messagesSent t₂ n.log) =
        requestSeqs h₁.order (messagesSent t₂ p.right.log) := by
      rw [hl, messagesSent_append, requestSeqs_append, ord.order, hnone, List.append_nil]
    dsimp only at hserved
    rw [hl, messagesTaken_append, requestSeqs_append, List.length_append] at hserved
    unfold Pair.backlog unserved
    dsimp only
    rw [hasked, hl, messagesTaken_append, requestSeqs_append, List.length_append, List.length_append,
      List.length_drop]
    have hless := backlog_lt hk hshort hserved
    omega
  | arriveLeft k polled =>
    have hk : 0 < k ∧ k ≤ p.toLeft.length := ha
    obtain ⟨n, l, hstep, hl, hnone, hshort⟩ := receiver_takes ord.left htoLeft ord.order.symm hright hleft
      hfreeLeft hbetween.right hbetween.left hbetween.otherLeft ord.bitsLeft hk polled
    have hnext : p.step E₁ E₂ t₁ t₂ (.arriveLeft k polled) = some { p with
        toLeft := p.toLeft.drop k, left := n, toRight := p.toRight ++ written t₁ p.left n } := by
      rw [Pair.step, if_pos hk, Pair.stepLeft]
      dsimp only
      rw [hstep]
      rfl
    refine ⟨_, hnext, ?_⟩
    have hserved := (hlast hnext).2.requests_le (o := h₁.order)
    have hasked : requestSeqs h₂.order (messagesSent t₁ n.log) =
        requestSeqs h₂.order (messagesSent t₁ p.left.log) := by
      rw [hl, messagesSent_append, requestSeqs_append, ← ord.order, hnone, List.append_nil]
    dsimp only at hserved
    rw [hl, messagesTaken_append, requestSeqs_append, List.length_append] at hserved
    unfold Pair.backlog unserved
    dsimp only
    rw [hasked, hl, messagesTaken_append, requestSeqs_append, List.length_append, List.length_append,
      List.length_drop]
    have hless := backlog_lt hk hshort hserved
    omega

theorem Orderly.arrivals_le {arr : List (PairAction ω₁ ω₂)} (harr : ∀ a ∈ arr, a.Arrives)
    (hrest : Runs.run (Pair.step E₁ E₂ t₁ t₂) p arr = some p') :
    p'.backlog t₁ t₂ + arr.length ≤ p.backlog t₁ t₂ := by
  induction arr generalizing p acts with
  | nil =>
    cases hrest
    exact Nat.le_refl _
  | cons a arr ih =>
    obtain ⟨m, hstep, hrest⟩ := Runs.run_cons.mp hrest
    have hfirst : a.Arrives := harr a (by simp)
    obtain ⟨m', hstep', hless⟩ := ord.arrive hrun (Pair.step_brings hfirst hstep)
    rw [hstep] at hstep'
    cases hstep'
    have hone : Runs.run (Pair.step E₁ E₂ t₁ t₂) p [a] = some m := Runs.run_cons.mpr ⟨_, hstep, rfl⟩
    have hsingle : ∀ c ∈ [a], c.Arrives := by simpa using hfirst
    have hmore := ih (ord.append_arrivals hsingle) (Runs.run_append.mpr ⟨_, hrun, hone⟩)
      (fun c hc => harr c (by simp [hc])) hrest
    rw [List.length_cons]
    omega

theorem Orderly.empties : ∃ arr p', (∀ a ∈ arr, a.Arrives) ∧
    Runs.run (Pair.step E₁ E₂ t₁ t₂) p arr = some p' ∧ p'.toRight = [] ∧ p'.toLeft = [] := by
  induction hsize : p.backlog t₁ t₂ using Nat.strong_induction_on generalizing p acts with
  | _ size ih =>
    subst hsize
    by_cases hquiet : p.toRight = [] ∧ p.toLeft = []
    · exact ⟨[], p, by simp, rfl, hquiet⟩
    · -- let everything on one side arrive
      have hnext : ∃ a, p.Brings a := by
        by_cases hright : p.toRight = []
        · have hleft : p.toLeft ≠ [] := fun hnil => hquiet ⟨hright, hnil⟩
          exact ⟨.arriveLeft p.toLeft.length false, List.length_pos_of_ne_nil hleft, Nat.le_refl _⟩
        · exact ⟨.arriveRight p.toRight.length false, List.length_pos_of_ne_nil hright, Nat.le_refl _⟩
      obtain ⟨a, hbrings⟩ := hnext
      have ha := hbrings.arrives
      obtain ⟨m, hstep, hless⟩ := ord.arrive hrun hbrings
      have hone : Runs.run (Pair.step E₁ E₂ t₁ t₂) p [a] = some m := Runs.run_cons.mpr ⟨_, hstep, rfl⟩
      have hsingle : ∀ c ∈ [a], c.Arrives := by simpa using ha
      obtain ⟨arr, p', harr, hrest, hempty⟩ := ih _ hless (ord.append_arrivals hsingle)
        (Runs.run_append.mpr ⟨_, hrun, hone⟩) rfl
      refine ⟨a :: arr, p', ?_, Runs.run_cons.mpr ⟨m, hstep, hrest⟩, hempty⟩
      intro c hc
      rcases List.mem_cons.mp hc with rfl | hc
      · exact ha
      · exact harr c hc

end Run

/-- The connection empties. In every state that two orderly nodes reach, whatever is on its way can
arrive, in pieces of any size; only so many arrivals can follow each other as there are bytes on their
way, and 4108 more for each request that is not dispatched yet; and some arrivals lead to a state where
nothing is on its way and each node has dispatched all that the other sent. -/
theorem connection_empties (ord : Orderly E₁ E₂ h₁ h₂ t₁ t₂ b₁ b₂ acts)
    (hrun : Runs.run (Pair.step E₁ E₂ t₁ t₂) (Pair.initial h₁ h₂ b₁ b₂) acts = some p) :
    (∀ a, p.Brings a → (p.step E₁ E₂ t₁ t₂ a).isSome) ∧
    (∀ arr p', (∀ a ∈ arr, a.Arrives) → Runs.run (Pair.step E₁ E₂ t₁ t₂) p arr = some p' →
      arr.length ≤ p.backlog t₁ t₂) ∧
    ∃ arr p', (∀ a ∈ arr, a.Arrives) ∧ Runs.run (Pair.step E₁ E₂ t₁ t₂) p arr = some p' ∧
      p'.toRight = [] ∧ p'.toLeft = [] ∧ messagesTaken t₂ p'.right.log = messagesSent t₁ p'.left.log ∧
        messagesTaken t₁ p'.left.log = messagesSent t₂ p'.right.log := by
  refine ⟨?_, ?_, ?_⟩
  · intro a ha
    obtain ⟨p', hstep, -⟩ := ord.arrive hrun ha
    rw [hstep]
    rfl
  · intro arr p' harr hrest
    have hle := ord.arrivals_le hrun harr hrest
    omega
  · obtain ⟨arr, p', harr, hrest, hright, hleft⟩ := ord.empties hrun
    obtain ⟨htoRight, htoLeft⟩ := (ord.append_arrivals harr).delivered (Runs.run_append.mpr ⟨_, hrun, hrest⟩)
    rw [hright] at htoRight
    rw [hleft] at htoLeft
    exact ⟨arr, p', harr, hrest, hright, hleft, htoRight.all_taken, htoLeft.all_taken⟩

theorem below_nil {o : ByteOrder} {N : Nat} : (wireFraming o).Below N [] := by
  rw [Framing.below_of_cut_none rfl]
  intro n hn
  cases hn

/-- A call for which nothing has arrived yet. -/
def askingCall : List (PairAction Unit Unit) := [.left (.bindTransport [0x65] 0), .left (.call notFoundArgs)]

theorem askingCall_orderly : Orderly Env.granting Env.granting ⟨.little, .w64⟩ ⟨.little, .w32⟩ 0 0 smallBoot
    smallBoot askingCall := by
  have hall : ∀ {P : PairAction Unit Unit → Prop}, P (.left (.bindTransport [0x65] 0)) →
      P (.left (.call notFoundArgs)) → ∀ a ∈ askingCall, P a := by
    intro P hbind hcall a ha
    simp only [askingCall, List.mem_cons, List.not_mem_nil, or_false] at ha
    rcases ha with rfl | rfl
    · exact hbind
    · exact hcall
  refine ⟨Env.granting_reliable, Env.granting_reliable, rfl, rfl, rfl, hall trivial notFoundArgs_named,
    ?_, ?_, ?_, ?_, fun t => below_nil, fun t => below_nil⟩
  · intro a ha
    apply hall (P := fun c => ∀ a, c = .left a → a.Tame .w64) _ _ _ ha a rfl
    · rintro a ⟨⟩
      trivial
    · rintro a ⟨⟩
      change sizeofRpcHeader + strlen _ + List.length _ < 2 ^ 32
      decide
  · simp [askingCall]
  · simp [askingCall]
  · simp [askingCall]

theorem askingCall_runs : (Runs.run (Pair.step Env.granting Env.granting 0 0) smallPair askingCall).isSome := by
  decide +kernel

/-- The request of the call and the answer to it can arrive. -/
theorem connection_empties_small : ∃ p, Runs.run (Pair.step Env.granting Env.granting 0 0) smallPair
    askingCall = some p ∧ ∃ arr p', (∀ a ∈ arr, a.Arrives) ∧
      Runs.run (Pair.step Env.granting Env.granting 0 0) p arr = some p' ∧ p'.toRight = [] ∧
        p'.toLeft = [] ∧ messagesTaken 0 p'.right.log = messagesSent 0 p'.left.log ∧
          messagesTaken 0 p'.left.log = messagesSent 0 p'.right.log := by
  obtain ⟨p, hrun⟩ := Option.isSome_iff_exists.mp askingCall_runs
  have hempties := connection_empties askingCall_orderly hrun
  exact ⟨p, hrun, hempties.2.2⟩

end CcRpc
