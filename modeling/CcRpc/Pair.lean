import CcRpc.Lib.Pipe
import CcRpc.Sending

/-!
# Two nodes that are connected

A transport of one node is connected to a transport of the other by two streams of bytes. The nodes take
their steps in any order, and whenever bytes are on their way some of them may arrive, however the
streams are cut. Each node may have other transports, and may call and serve at the same time.
-/

namespace CcRpc

variable {h h₁ h₂ : Host} {ω ω₁ ω₂ : Type}

/-- Two nodes and what is on its way between them. -/
structure Pair (h₁ h₂ : Host) (ω₁ ω₂ : Type) where
  left : Node h₁ ω₁
  right : Node h₂ ω₂
  toRight : Bytes
  toLeft : Bytes

/-- A step of one node, or the arrival of the first `k` bytes that are on their way to it. -/
inductive PairAction (ω₁ ω₂ : Type) where
  | left (a : Action ω₁)
  | right (a : Action ω₂)
  | arriveRight (k : Nat) (polled : Bool)
  | arriveLeft (k : Nat) (polled : Bool)

/-- `rpc_on_data` for the transport. -/
def Action.reads (t : Nat) : Action ω → Bool
  | .onData t' _ _ => t' == t
  | _ => false

/-- Data that `rpc_on_data` is handed, or finds when it polls. -/
def arrival (t : Nat) (data : Bytes) (polled : Bool) : Action ω :=
  if polled then .onData t [] data else .onData t data []

/-- What the transport accepted while the node went from `n` to `n'`. -/
def written (t : Nat) (n n' : Node h ω) : Bytes := stream (sendsOn t (n'.log.drop n.log.length))

section Step

variable (E₁ E₂ : Env) (t₁ t₂ : Nat)

def Pair.stepLeft (p : Pair h₁ h₂ ω₁ ω₂) (a : Action ω₁) : Option (Pair h₁ h₂ ω₁ ω₂) :=
  (p.left.step E₁ a).map fun n => { p with left := n, toRight := p.toRight ++ written t₁ p.left n }

def Pair.stepRight (p : Pair h₁ h₂ ω₁ ω₂) (a : Action ω₂) : Option (Pair h₁ h₂ ω₁ ω₂) :=
  (p.right.step E₂ a).map fun n => { p with right := n, toLeft := p.toLeft ++ written t₂ p.right n }

/-- The connection is read by arrivals only, and something arrives each time. -/
def Pair.step (p : Pair h₁ h₂ ω₁ ω₂) : PairAction ω₁ ω₂ → Option (Pair h₁ h₂ ω₁ ω₂)
  | .left a => if a.reads t₁ then none else p.stepLeft E₁ t₁ a
  | .right a => if a.reads t₂ then none else p.stepRight E₂ t₂ a
  | .arriveRight k polled =>
    if 0 < k ∧ k ≤ p.toRight.length then
      { p with toRight := p.toRight.drop k }.stepRight E₂ t₂ (arrival t₂ (p.toRight.take k) polled)
    else none
  | .arriveLeft k polled =>
    if 0 < k ∧ k ≤ p.toLeft.length then
      { p with toLeft := p.toLeft.drop k }.stepLeft E₁ t₁ (arrival t₁ (p.toLeft.take k) polled)
    else none

end Step

def Pair.initial (h₁ h₂ : Host) (b₁ : Boot ω₁) (b₂ : Boot ω₂) : Pair h₁ h₂ ω₁ ω₂ :=
  ⟨b₁.node h₁, b₂.node h₂, [], []⟩

theorem sendsOn_append (t : Nat) (l l' : List Event) :
    sendsOn t (l ++ l') = sendsOn t l ++ sendsOn t l' := List.filterMap_append ..

theorem written_append {t : Nat} {n n' : Node h ω} {l : List Event} (hl : n'.log = n.log ++ l) :
    written t n n' = stream (sendsOn t l) := by
  unfold written
  rw [hl, List.drop_left]

theorem written_trans {t : Nat} {n m n' : Node h ω} (hm : ∃ l, m.log = n.log ++ l)
    (hn' : ∃ l, n'.log = m.log ++ l) : written t n n' = written t n m ++ written t m n' := by
  obtain ⟨l, hl⟩ := hm
  obtain ⟨l', hl'⟩ := hn'
  have hall : n'.log = n.log ++ (l ++ l') := by rw [hl', hl, List.append_assoc]
  rw [written_append hall, written_append hl, written_append hl', sendsOn_append, stream_append]

theorem written_self (t : Nat) (n : Node h ω) : written t n n = [] := by
  rw [written_append (List.append_nil n.log).symm]
  rfl

theorem arrived_append (t : Nat) (as bs : List (Action ω)) :
    arrived t (as ++ bs) = arrived t as ++ arrived t bs := List.flatMap_append

theorem arrived_singleton (t : Nat) (a : Action ω) : arrived t [a] = a.chunk t := List.flatMap_singleton ..

theorem chunk_arrival (t : Nat) {data : Bytes} (hdata : data ≠ []) (polled : Bool) :
    (arrival t data polled : Action ω).chunk t = data := by
  have hpos : 0 < data.length := List.length_pos_of_ne_nil hdata
  cases polled with
  | false => simp [arrival, Action.chunk, received, hpos]
  | true => simp [arrival, Action.chunk, received]

theorem take_ne_nil {k : Nat} {data : Bytes} (hk : 0 < k ∧ k ≤ data.length) : data.take k ≠ [] := by
  intro hnil
  have hlen := congrArg List.length hnil
  rw [List.length_take_of_le hk.2] at hlen
  exact absurd hlen (Nat.ne_of_gt hk.1)

theorem chunk_of_reads {t : Nat} {a : Action ω} (ha : a.reads t = false) : a.chunk t = [] := by
  cases a with
  | onData t' buf polled =>
    apply if_neg
    simpa [Action.reads] using ha
  | _ => rfl

/-- An action of a node in a run of the pair: one of its own, or an arrival. -/
def ActsOn (t : Nat) (own : Action ω → Prop) (a : Action ω) : Prop :=
  own a ∧ a.reads t = false ∨ ∃ data polled, data ≠ [] ∧ a = arrival t data polled

def PairAction.ofLeft : PairAction ω₁ ω₂ → Option (Action ω₁)
  | .left a => some a
  | _ => none

def PairAction.ofRight : PairAction ω₁ ω₂ → Option (Action ω₂)
  | .right a => some a
  | _ => none

/-- What arrives on a transport of the node on the left that is not the connection. -/
def otherLeft (t : Nat) (acts : List (PairAction ω₁ ω₂)) : Bytes :=
  arrived t (acts.filterMap PairAction.ofLeft)

def otherRight (t : Nat) (acts : List (PairAction ω₁ ω₂)) : Bytes :=
  arrived t (acts.filterMap PairAction.ofRight)

theorem otherLeft_append (t : Nat) (acts acts' : List (PairAction ω₁ ω₂)) :
    otherLeft t (acts ++ acts') = otherLeft t acts ++ otherLeft t acts' := by
  unfold otherLeft
  rw [List.filterMap_append, arrived_append]

theorem otherRight_append (t : Nat) (acts acts' : List (PairAction ω₁ ω₂)) :
    otherRight t (acts ++ acts') = otherRight t acts ++ otherRight t acts' := by
  unfold otherRight
  rw [List.filterMap_append, arrived_append]

theorem chunk_arrival_other {t t' : Nat} (ht : t' ≠ t) (data : Bytes) (polled : Bool) :
    (arrival t data polled : Action ω).chunk t' = [] := by
  cases polled <;> exact if_neg ht.symm

/-- The nodes went from one state of the pair to the other by these actions. -/
structure Pair.Between (E₁ E₂ : Env) (t₁ t₂ : Nat) (acts : List (PairAction ω₁ ω₂))
    (p p' : Pair h₁ h₂ ω₁ ω₂) (as : List (Action ω₁)) (bs : List (Action ω₂)) : Prop where
  left : Runs.run (Node.step E₁) p.left as = some p'.left
  right : Runs.run (Node.step E₂) p.right bs = some p'.right
  leftActs : ∀ a ∈ as, ActsOn t₁ (fun a => .left a ∈ acts) a
  rightActs : ∀ a ∈ bs, ActsOn t₂ (fun a => .right a ∈ acts) a
  toRight : arrived t₂ bs ++ p'.toRight = p.toRight ++ written t₁ p.left p'.left
  toLeft : arrived t₁ as ++ p'.toLeft = p.toLeft ++ written t₂ p.right p'.right
  otherLeft : ∀ t, t ≠ t₁ → arrived t as = otherLeft t acts
  otherRight : ∀ t, t ≠ t₂ → arrived t bs = otherRight t acts

section Between

variable {E₁ E₂ : Env} {t₁ t₂ : Nat} {acts acts' : List (PairAction ω₁ ω₂)}
  {p m p' : Pair h₁ h₂ ω₁ ω₂} {as as' : List (Action ω₁)} {bs bs' : List (Action ω₂)}

theorem ActsOn.mono {t : Nat} {own own' : Action ω → Prop} (hown : ∀ a, own a → own' a) {a : Action ω}
    (ha : ActsOn t own a) : ActsOn t own' a := by
  rcases ha with ⟨hin, hreads⟩ | harr
  · exact .inl ⟨hown a hin, hreads⟩
  · exact .inr harr

theorem ActsOn.not_empty {t : Nat} {own : Action ω → Prop} (hown : ∀ t, ¬ own (.onData t [] []))
    {a : Action ω} (ha : ActsOn t own a) (t' : Nat) : a ≠ .onData t' [] [] := by
  rintro rfl
  rcases ha with ⟨hin, -⟩ | ⟨data, polled, hdata, heq⟩
  · exact hown t' hin
  · cases polled with
    | false =>
      cases heq
      exact hdata rfl
    | true =>
      cases heq
      exact hdata rfl

theorem Pair.Between.refl (p : Pair h₁ h₂ ω₁ ω₂) : Between E₁ E₂ t₁ t₂ [] p p [] [] := by
  refine ⟨rfl, rfl, by simp, by simp, ?_, ?_, fun _ _ => rfl, fun _ _ => rfl⟩
  · rw [written_self, List.append_nil]
    rfl
  · rw [written_self, List.append_nil]
    rfl

theorem Pair.Between.trans (hpm : Between E₁ E₂ t₁ t₂ acts p m as bs)
    (hmp : Between E₁ E₂ t₁ t₂ acts' m p' as' bs') :
    Between E₁ E₂ t₁ t₂ (acts ++ acts') p p' (as ++ as') (bs ++ bs') := by
  refine ⟨?_, ?_, ?_, ?_, ?_, ?_, ?_, ?_⟩
  · exact Runs.run_append.mpr ⟨_, hpm.left, hmp.left⟩
  · exact Runs.run_append.mpr ⟨_, hpm.right, hmp.right⟩
  · intro a ha
    rcases List.mem_append.mp ha with ha | ha
    · exact (hpm.leftActs a ha).mono fun b hb => List.mem_append_left _ hb
    · exact (hmp.leftActs a ha).mono fun b hb => List.mem_append_right _ hb
  · intro a ha
    rcases List.mem_append.mp ha with ha | ha
    · exact (hpm.rightActs a ha).mono fun b hb => List.mem_append_left _ hb
    · exact (hmp.rightActs a ha).mono fun b hb => List.mem_append_right _ hb
  · rw [arrived_append, List.append_assoc, hmp.toRight, ← List.append_assoc, hpm.toRight,
      List.append_assoc, ← written_trans (Node.run_log hpm.left) (Node.run_log hmp.left)]
  · rw [arrived_append, List.append_assoc, hmp.toLeft, ← List.append_assoc, hpm.toLeft,
      List.append_assoc, ← written_trans (Node.run_log hpm.right) (Node.run_log hmp.right)]
  · intro t ht
    rw [arrived_append, otherLeft_append, hpm.otherLeft t ht, hmp.otherLeft t ht]
  · intro t ht
    rw [arrived_append, otherRight_append, hpm.otherRight t ht, hmp.otherRight t ht]

theorem Pair.between_left {a : Action ω₁} (hstep : p.stepLeft E₁ t₁ a = some p')
    {q : Pair h₁ h₂ ω₁ ω₂} (hleft : q.left = p.left) (hright : q.right = p.right)
    (htoRight : q.toRight = p.toRight) (htoLeft : a.chunk t₁ ++ p.toLeft = q.toLeft)
    (ha : ActsOn t₁ (fun a => .left a ∈ acts) a)
    (hother : ∀ t, t ≠ t₁ → a.chunk t = otherLeft t acts) (hnone : ∀ t, otherRight t acts = []) :
    Between E₁ E₂ t₁ t₂ acts q p' [a] [] := by
  obtain ⟨n, hn, rfl⟩ := Option.map_eq_some_iff.mp hstep
  refine ⟨?_, ?_, ?_, by simp, ?_, ?_, ?_, fun t _ => (hnone t).symm⟩
  · rw [hleft]
    exact Runs.run_cons.mpr ⟨n, hn, rfl⟩
  · rw [hright]
    rfl
  · intro b hb
    rw [List.mem_singleton.mp hb]
    exact ha
  · rw [hleft, htoRight]
    rfl
  · rw [hright, arrived_singleton, htoLeft]
    dsimp only
    rw [written_self, List.append_nil]
  · intro t ht
    rw [arrived_singleton]
    exact hother t ht

theorem Pair.between_right {b : Action ω₂} (hstep : p.stepRight E₂ t₂ b = some p')
    {q : Pair h₁ h₂ ω₁ ω₂} (hleft : q.left = p.left) (hright : q.right = p.right)
    (htoLeft : q.toLeft = p.toLeft) (htoRight : b.chunk t₂ ++ p.toRight = q.toRight)
    (hb : ActsOn t₂ (fun b => .right b ∈ acts) b)
    (hother : ∀ t, t ≠ t₂ → b.chunk t = otherRight t acts) (hnone : ∀ t, otherLeft t acts = []) :
    Between E₁ E₂ t₁ t₂ acts q p' [] [b] := by
  obtain ⟨n, hn, rfl⟩ := Option.map_eq_some_iff.mp hstep
  refine ⟨?_, ?_, by simp, ?_, ?_, ?_, fun t _ => (hnone t).symm, ?_⟩
  · rw [hleft]
    rfl
  · rw [hright]
    exact Runs.run_cons.mpr ⟨n, hn, rfl⟩
  · intro a ha
    rw [List.mem_singleton.mp ha]
    exact hb
  · rw [hleft, arrived_singleton, htoRight]
    dsimp only
    rw [written_self, List.append_nil]
  · rw [hright, htoLeft]
    rfl
  · intro t ht
    rw [arrived_singleton]
    exact hother t ht

theorem Pair.step_between {a : PairAction ω₁ ω₂} (hstep : p.step E₁ E₂ t₁ t₂ a = some p') :
    ∃ as bs, Between E₁ E₂ t₁ t₂ [a] p p' as bs := by
  cases a with
  | left a =>
    rw [Pair.step] at hstep
    split at hstep
    · cases hstep
    · next hreads =>
      have hreads' : a.reads t₁ = false := Bool.eq_false_iff.mpr hreads
      refine ⟨[a], [], between_left hstep rfl rfl rfl ?_ (.inl ⟨by simp, hreads'⟩) ?_ fun _ => rfl⟩
      · rw [chunk_of_reads hreads']
        rfl
      · exact fun t _ => (arrived_singleton t a).symm
  | right b =>
    rw [Pair.step] at hstep
    split at hstep
    · cases hstep
    · next hreads =>
      have hreads' : b.reads t₂ = false := Bool.eq_false_iff.mpr hreads
      refine ⟨[], [b], between_right hstep rfl rfl rfl ?_ (.inl ⟨by simp, hreads'⟩) ?_ fun _ => rfl⟩
      · rw [chunk_of_reads hreads']
        rfl
      · exact fun t _ => (arrived_singleton t b).symm
  | arriveRight k polled =>
    rw [Pair.step] at hstep
    split at hstep
    · next hk =>
      refine ⟨[], [_], between_right hstep rfl rfl rfl ?_ (.inr ⟨_, polled, take_ne_nil hk, rfl⟩) ?_
        fun _ => rfl⟩
      · rw [chunk_arrival t₂ (take_ne_nil hk), List.take_append_drop]
      · exact fun t ht => chunk_arrival_other ht _ _
    · cases hstep
  | arriveLeft k polled =>
    rw [Pair.step] at hstep
    split at hstep
    · next hk =>
      refine ⟨[_], [], between_left hstep rfl rfl rfl ?_ (.inr ⟨_, polled, take_ne_nil hk, rfl⟩) ?_
        fun _ => rfl⟩
      · rw [chunk_arrival t₁ (take_ne_nil hk), List.take_append_drop]
      · exact fun t ht => chunk_arrival_other ht _ _
    · cases hstep

theorem Pair.run_between (hrun : Runs.run (Pair.step E₁ E₂ t₁ t₂) p acts = some p') :
    ∃ as bs, Between E₁ E₂ t₁ t₂ acts p p' as bs := by
  induction acts generalizing p with
  | nil =>
    cases hrun
    exact ⟨[], [], .refl _⟩
  | cons a acts ih =>
    obtain ⟨m, hstep, hrun⟩ := Runs.run_cons.mp hrun
    obtain ⟨as, bs, hfirst⟩ := Pair.step_between hstep
    obtain ⟨as', bs', hrest⟩ := ih hrun
    exact ⟨as ++ as', bs ++ bs', hfirst.trans hrest⟩

end Between

end CcRpc
