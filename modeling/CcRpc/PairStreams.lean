import CcRpc.Pair

/-!
# The messages of one node are those the other dispatches

With transports that take whole messages, and memory for every buffer, what one node sends on the
connection is what the other dispatches there: the same messages in the same order, each once, and
nothing that has arrived whole is held back.
-/

namespace CcRpc

variable {h h₁ h₂ : Host} {ω ω₁ ω₂ : Type} {E E₁ E₂ : Env} {t₁ t₂ : Nat}

/-- The messages handed to the transport `t` in this part of a log. -/
def messagesSent (t : Nat) (l : List Event) : List Bytes := (sendsOn t l).map Prod.fst

/-- What `n₂` has dispatched of what `n₁` sent, with `flight` on its way: the first messages, whole and
in their order. Of the later ones it has less than the next. -/
def Delivered (t₁ t₂ : Nat) (n₁ : Node h₁ ω₁) (n₂ : Node h₂ ω₂) (flight : Bytes) : Prop :=
  ∃ ms later : List Bytes, messagesSent t₁ n₁.log = ms ++ later ∧
    dispatchedOn t₂ n₂.log = ms.map withLength ∧
      (n₂.transports t₂).reasm.bytes ++ flight = later.flatten ∧
        ∀ f ∈ later.head?, (n₂.transports t₂).reasm.bytes.length < f.length

theorem messagesSent_append (t : Nat) (l l' : List Event) :
    messagesSent t (l ++ l') = messagesSent t l ++ messagesSent t l' := by
  unfold messagesSent
  rw [sendsOn_append, List.map_append]

theorem mem_sendsOn {t : Nat} {l : List Event} {msg : Bytes} {ret : Nat} :
    (msg, ret) ∈ sendsOn t l ↔ .sent t msg ret ∈ l := by
  unfold sendsOn
  rw [List.mem_filterMap]
  constructor
  · rintro ⟨e, he, hmsg⟩
    cases e with
    | sent t' msg' ret' =>
      dsimp only at hmsg
      split at hmsg
      · next ht =>
        cases hmsg
        rw [← ht]
        exact he
      · cases hmsg
    | dispatched => cases hmsg
    | ran => cases hmsg
  · intro he
    exact ⟨_, he, by simp⟩

theorem mem_messagesSent {t : Nat} {l : List Event} {msg : Bytes} :
    msg ∈ messagesSent t l ↔ ∃ ret, .sent t msg ret ∈ l := by
  unfold messagesSent
  simp only [List.mem_map, Prod.exists, mem_sendsOn]
  constructor
  · rintro ⟨msg', ret, hmem, rfl⟩
    exact ⟨ret, hmem⟩
  · rintro ⟨ret, hmem⟩
    exact ⟨msg, ret, hmem, rfl⟩

theorem stream_eq_flatten {sends : List (Bytes × Nat)} (htaken : ∀ x ∈ sends, x.2 = x.1.length) :
    stream sends = (sends.map Prod.fst).flatten := by
  induction sends with
  | nil => rfl
  | cons x xs ih =>
    have hx : acceptedBytes x = x.1 := by
      unfold acceptedBytes
      rw [htaken x (by simp), if_pos (Nat.le_refl _), List.take_length]
    have hxs := ih fun y hy => htaken y (by simp [hy])
    unfold stream at hxs ⊢
    rw [List.flatMap_cons, List.map_cons, List.flatten_cons, hx, hxs]

theorem run_taken (hE : E.Reliable) {b : Boot ω} {n : Node h ω} {acts : List (Action ω)}
    (hrun : Runs.run (Node.step E) (b.node h) acts = some n) (t : Nat) :
    ∀ x ∈ sendsOn t n.log, x.2 = x.1.length := by
  obtain ⟨l, hl, hpieces⟩ := (Node.run_leads (C := fun _ => True) (fun _ _ => trivial) hrun).pieces
  have hlog : n.log = l := hl
  intro x hx
  obtain ⟨msg, ret⟩ := x
  rw [hlog, mem_sendsOn] at hx
  obtain ⟨k, hk⟩ := hpieces.taken hx
  exact hk.trans (hE.takes k msg)

theorem run_frames {b : Boot ω} {n : Node h ω} {acts : List (Action ω)} {t : Nat}
    (hrun : Runs.run (Node.step E) (b.node h) acts = some n)
    (hsize : ∀ msg ∈ messagesSent t n.log, msg.length < 2 ^ 32) :
    ∀ f ∈ messagesSent t n.log, (wireFraming h.order).IsFrame f := by
  intro f hf
  obtain ⟨x, hx, rfl⟩ := List.mem_map.mp hf
  exact (saysLength_of_run hrun t x hx).isFrame (Nat.lt_add_left _ (hsize x.1 hf))

/-- The receiver cuts the messages of the sender out of the stream. -/
theorem delivers_of_runs (hE₁ : E₁.Reliable) (hE₂ : E₂.Grants) (horder : h₁.order = h₂.order)
    {b₁ : Boot ω₁} {b₂ : Boot ω₂} (hrecv : b₂.hasRecv t₂ = true) {n₁ : Node h₁ ω₁} {n₂ : Node h₂ ω₂}
    {as : List (Action ω₁)} {bs : List (Action ω₂)}
    (hrun₁ : Runs.run (Node.step E₁) (b₁.node h₁) as = some n₁)
    (hrun₂ : Runs.run (Node.step E₂) (b₂.node h₂) bs = some n₂)
    (hsize : ∀ msg ∈ messagesSent t₁ n₁.log, msg.length < 2 ^ 32) {flight : Bytes}
    (hflow : arrived t₂ bs ++ flight = stream (sendsOn t₁ n₁.log)) :
    Delivered t₁ t₂ n₁ n₂ flight := by
  have hstream : arrived t₂ bs ++ flight = (messagesSent t₁ n₁.log).flatten :=
    hflow.trans (stream_eq_flatten (run_taken hE₁ hrun₁ t₁))
  have hword := h₂.word.two_pow_le
  have hframes := run_frames hrun₁ hsize
  rw [horder] at hframes
  have haddress : ∀ f ∈ messagesSent t₁ n₁.log, f.length < 2 ^ h₂.word.bits := by
    intro f hf
    exact (hsize f hf).trans_le hword
  have hprefix : arrived t₂ bs <+: (messagesSent t₁ n₁.log).flatten := by
    rw [← hstream]
    exact List.prefix_append _ _
  have hbits := (Framing.frames_of_prefix (need_nil _) hframes haddress hprefix).2
  have hfollows : Follows t₂ (arrived t₂ bs) n₂ := by
    have hstart : Follows t₂ [] (b₂.node h₂) := initial_follows _ _ _ _ _ _ hrecv
    have hall := hstart.run hE₂ (by rw [List.nil_append]; exact hbits) hrun₂
    rw [List.nil_append] at hall
    exact hall
  obtain ⟨later, hsplit, hrest, hnext⟩ := Framing.frames_pipe hframes hstream
  rw [← hfollows.queue] at hrest hnext
  exact ⟨_, later, hsplit, hfollows.dispatched, hrest, hnext⟩

theorem Pair.Between.delivers (hE₁ : E₁.Reliable) (hE₂ : E₂.Reliable) (horder : h₁.order = h₂.order)
    {b₁ : Boot ω₁} {b₂ : Boot ω₂} (hrecv₁ : b₁.hasRecv t₁ = true) (hrecv₂ : b₂.hasRecv t₂ = true)
    {acts : List (PairAction ω₁ ω₂)} {p : Pair h₁ h₂ ω₁ ω₂} {as : List (Action ω₁)} {bs : List (Action ω₂)}
    (hbetween : Between E₁ E₂ t₁ t₂ acts (Pair.initial h₁ h₂ b₁ b₂) p as bs)
    (hsize₁ : ∀ msg ∈ messagesSent t₁ p.left.log, msg.length < 2 ^ 32)
    (hsize₂ : ∀ msg ∈ messagesSent t₂ p.right.log, msg.length < 2 ^ 32) :
    Delivered t₁ t₂ p.left p.right p.toRight ∧ Delivered t₂ t₁ p.right p.left p.toLeft := by
  constructor
  · exact delivers_of_runs hE₁ hE₂.grants horder hrecv₂ hbetween.left hbetween.right hsize₁
      hbetween.toRight
  · exact delivers_of_runs hE₂ hE₁.grants horder.symm hrecv₁ hbetween.right hbetween.left hsize₂
      hbetween.toLeft

/-- The connection delivers. In every run of two reliable nodes of one byte order that have a `recv` on it
and send no message of 4 GiB, in each direction: the messages that were dispatched are the first of those
that were sent, whole, in their order and each once, and the bytes that are kept or on their way are the
later ones, of which nothing that is complete is kept. -/
theorem Pair.messages_delivered (hE₁ : E₁.Reliable) (hE₂ : E₂.Reliable) (horder : h₁.order = h₂.order)
    {b₁ : Boot ω₁} {b₂ : Boot ω₂} (hrecv₁ : b₁.hasRecv t₁ = true) (hrecv₂ : b₂.hasRecv t₂ = true)
    {acts : List (PairAction ω₁ ω₂)} {p : Pair h₁ h₂ ω₁ ω₂}
    (hrun : Runs.run (Pair.step E₁ E₂ t₁ t₂) (Pair.initial h₁ h₂ b₁ b₂) acts = some p)
    (hsize₁ : ∀ msg ∈ messagesSent t₁ p.left.log, msg.length < 2 ^ 32)
    (hsize₂ : ∀ msg ∈ messagesSent t₂ p.right.log, msg.length < 2 ^ 32) :
    Delivered t₁ t₂ p.left p.right p.toRight ∧ Delivered t₂ t₁ p.right p.left p.toLeft := by
  obtain ⟨as, bs, hbetween⟩ := Pair.run_between hrun
  exact hbetween.delivers hE₁ hE₂ horder hrecv₁ hrecv₂ hsize₁ hsize₂

/-- A call of the method `e`, which the other node does not have, from a 64-bit host to a 32-bit one. The
request arrives in two pieces. -/
def notFoundCall : List (PairAction Unit Unit) :=
  [.left (.call ⟨[0x65], [], none, none, room_none⟩), .arriveRight 5 true, .arriveRight 8 false,
    .arriveLeft 12 true, .left (.wait 0), .left (.finish 0)]

def smallPair : Pair ⟨.little, .w64⟩ ⟨.little, .w32⟩ Unit Unit := Pair.initial _ _ smallBoot smallBoot

def notFoundRun (acts : List (PairAction Unit Unit)) :
    Option (Pair ⟨.little, .w64⟩ ⟨.little, .w32⟩ Unit Unit) :=
  Runs.run (Pair.step Env.granting Env.granting 0 0) smallPair (.left (.bindTransport [0x65] 0) :: acts)

theorem Env.granting_reliable : Env.granting.Reliable := ⟨fun _ => rfl, fun _ => rfl, fun _ _ => rfl⟩

theorem notFoundRun_messages : (notFoundRun notFoundCall).map (fun p =>
    (messagesSent 0 p.left.log, messagesSent 0 p.right.log)) =
      some ([[0, 0, 0, 0, 0, 1, 0, 0, 0, 1, 0, 1, 0x65]], [[0, 1, 0, 0, 0, 1, 0, 0, 0, 0, 0, 0]]) := by
  decide +kernel

/-- Both messages of the call are delivered. -/
theorem Pair.messages_delivered_small :
    ∃ p, notFoundRun notFoundCall = some p ∧ Delivered 0 0 p.left p.right p.toRight ∧
      Delivered 0 0 p.right p.left p.toLeft := by
  obtain ⟨p, hrun, hmessages⟩ := Option.map_eq_some_iff.mp notFoundRun_messages
  rw [Prod.mk.injEq] at hmessages
  have hrecv : smallBoot.hasRecv 0 = true := rfl
  have hsize₁ : ∀ msg ∈ messagesSent 0 p.left.log, msg.length < 2 ^ 32 := by
    rw [hmessages.1]
    decide
  have hsize₂ : ∀ msg ∈ messagesSent 0 p.right.log, msg.length < 2 ^ 32 := by
    rw [hmessages.2]
    decide
  have hdelivers := @Pair.messages_delivered ⟨.little, .w64⟩ ⟨.little, .w32⟩ _ _ _ _ 0 0 Env.granting_reliable
    Env.granting_reliable rfl smallBoot smallBoot hrecv hrecv _ p hrun hsize₁ hsize₂
  exact ⟨p, hrun, hdelivers⟩

end CcRpc
