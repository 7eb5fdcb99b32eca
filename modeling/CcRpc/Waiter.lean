import CcRpc.Node
import CcRpc.Lib.Monitor
import CcRpc.Lib.Runs

/-!
# The waiter (`rpc_port.c`)

A call has a waiter: a flag under a mutex and a condition variable. Its thread waits for the flag in
`rpc_waiter_wait`, and whoever handles a response raises it in `rpc_waiter_wake`. Step by step, in any
order, these functions do to the call what its moves do in the model of a node.
-/

namespace CcRpc

open Monitor

/-- The moves of a call that concern its waiter. -/
inductive CallMove where
  | store
  | wait
  | wake
  | expire

/-- A move of a call. A response that is stored raises the flag. -/
def CallMove.step (c : Call) : CallMove → Option Call
  | .store => some { c with signaled := true }
  | .wait => c.wait
  | .wake => c.wake
  | .expire => c.expire

/-- `struct rpc_waiter` without its mutex and condition variable, what `rpc_waiter_wait` returned, and
the moves that were made, the last one first. -/
structure Waiter where
  signaled : Bool
  ret : Option Int
  moves : List CallMove

/-- The points of `rpc_waiter_wait` and `rpc_waiter_wake` at which the lock is held. -/
inductive WaiterPoint where
  /-- The test of the loop, the first time or again. -/
  | test (again : Bool)
  | take (again : Bool)
  /-- `r != 0`. -/
  | failed
  /-- `w->signaled = 1`. -/
  | store
  | signal
  | unlock

def waiterCode : WaiterPoint → Waiter → Move Waiter WaiterPoint
  | .test again, w =>
    if w.signaled then .go w (.take again)
    else .wait (if again then w else { w with moves := .wait :: w.moves }) (.test true) .failed
  | .take again, w => .leave ⟨false, some 0, (if again then .wake else .wait) :: w.moves⟩
  | .failed, w => .leave ⟨w.signaled, some (-1), .expire :: w.moves⟩
  | .store, w => .go { w with signaled := true, moves := .store :: w.moves } .signal
  | .signal, _ => .signal .unlock
  | .unlock, w => .leave w

variable {ι : Type}

/-- The thread of the call, and any number of calls of `rpc_waiter_wake`. -/
def waiterEntry : Option ι → WaiterPoint
  | none => .test false
  | some _ => .store

/-- `rpc_waiter_create`. -/
def waiterStart : State (Option ι) Waiter WaiterPoint := State.start ⟨false, none, []⟩ waiterEntry

/-- Where the thread of the call is in the code, and in the model of a node. -/
def CallerAt (c : Call) (d : Waiter) : Place WaiterPoint → Prop
  | .entering (.test false) | .inside (.test false) => c.phase = .sent ∧ d.ret = none
  | .inside (.take false) => c.phase = .sent ∧ d.signaled = true ∧ d.ret = none
  | .entering (.test true) | .inside (.test true) | .waiting (.test true) .failed =>
    c.phase = .blocked ∧ d.ret = none
  | .inside (.take true) => c.phase = .blocked ∧ d.signaled = true ∧ d.ret = none
  | .entering .failed | .inside .failed => c.phase = .blocked ∧ d.ret = none
  | .done => c.phase = .woken ∧ d.ret = some 0 ∨ c.phase = .expired ∧ d.ret = some (-1)
  | _ => False

/-- The points of `rpc_waiter_wake`. -/
def WakerAt : Place WaiterPoint → Prop
  | .entering .store | .inside .store | .inside .signal | .inside .unlock | .done => True
  | _ => False

/-- The moves so far, from the call `c` on, lead to where its thread is. -/
def WaiterAt (c : Call) : Option ι → Place WaiterPoint → Waiter → Prop
  | none, p, d => ∃ c', Runs.run CallMove.step c d.moves.reverse = some c' ∧ c'.signaled = d.signaled ∧
      CallerAt c' d p
  | some _, p, _ => WakerAt p

variable {c : Call} {d : Waiter}

theorem run_moved {m : CallMove} {ms : List CallMove} {c' c'' : Call}
    (hrun : Runs.run CallMove.step c ms.reverse = some c') (hmove : CallMove.step c' m = some c'') :
    Runs.run CallMove.step c (m :: ms).reverse = some c'' := by
  rw [List.reverse_cons]
  exact Runs.run_append.mpr ⟨c', hrun, Runs.run_cons.mpr ⟨c'', hmove, rfl⟩⟩

section Caller

variable {p q : WaiterPoint} {d' : Waiter} {c' : Call}

theorem CallerAt.lock (h : CallerAt c d (.entering p)) : CallerAt c d (.inside p) := by
  rcases p with (_ | _) | _ | _ | _ | _ | _ <;> first | exact h | exact h.elim

theorem CallerAt.go (h : CallerAt c d (.inside p)) (hcode : waiterCode p d = .go d' q) :
    d' = d ∧ CallerAt c d (.inside q) := by
  cases p with
  | test again =>
    cases hs : d.signaled <;> simp [waiterCode, hs] at hcode
    obtain ⟨rfl, rfl⟩ := hcode
    cases again with
    | false => exact ⟨rfl, h.1, hs, h.2⟩
    | true => exact ⟨rfl, h.1, hs, h.2⟩
  | take again => cases hcode
  | failed => cases hcode
  | _ => exact h.elim

theorem CallerAt.wait {woken expired : WaiterPoint} (h : CallerAt c d (.inside p))
    (hsignaled : c.signaled = d.signaled) (hcode : waiterCode p d = .wait d' woken expired) :
    ∃ c', (d'.moves = d.moves ∧ c' = c ∨ d'.moves = .wait :: d.moves ∧ c.wait = some c') ∧
      c'.signaled = d'.signaled ∧ CallerAt c' d' (.waiting woken expired) := by
  cases p with
  | test again =>
    cases hs : d.signaled <;> simp [waiterCode, hs] at hcode
    obtain ⟨rfl, rfl, rfl⟩ := hcode
    rw [hs] at hsignaled
    cases again with
    | false =>
      refine ⟨{ c with phase := .blocked }, .inr ⟨rfl, ?_⟩, hsignaled.trans rfl, rfl, h.2⟩
      rw [Call.wait, if_pos h.1, hsignaled]
      rfl
    | true => exact ⟨c, .inl ⟨rfl, rfl⟩, hsignaled.trans hs.symm, h⟩
  | take again => cases hcode
  | failed => cases hcode
  | _ => exact h.elim

theorem CallerAt.leave (h : CallerAt c d (.inside p)) (hsignaled : c.signaled = d.signaled)
    (hcode : waiterCode p d = .leave d') :
    ∃ m c', d'.moves = m :: d.moves ∧ CallMove.step c m = some c' ∧ c'.signaled = d'.signaled ∧
      CallerAt c' d' .done := by
  cases p with
  | test again => cases hs : d.signaled <;> simp [waiterCode, hs] at hcode
  | take again =>
    cases hcode
    cases again with
    | false =>
      refine ⟨.wait, { c with phase := .woken, signaled := false }, rfl, ?_, rfl, .inl ⟨rfl, rfl⟩⟩
      rw [CallMove.step, Call.wait, if_pos h.1, hsignaled, h.2.1]
      rfl
    | true =>
      refine ⟨.wake, { c with phase := .woken, signaled := false }, rfl, ?_, rfl, .inl ⟨rfl, rfl⟩⟩
      rw [CallMove.step, Call.wake, if_pos ⟨h.1, hsignaled.trans h.2.1⟩]
  | failed =>
    cases hcode
    refine ⟨.expire, { c with phase := .expired }, rfl, ?_, hsignaled, .inr ⟨rfl, rfl⟩⟩
    rw [CallMove.step, Call.expire, if_pos h.1]
  | _ => exact h.elim

theorem CallerAt.woken {woken expired : WaiterPoint} (h : CallerAt c d (.waiting woken expired)) :
    CallerAt c d (.entering woken) ∧ CallerAt c d (.entering expired) := by
  rcases woken with (_ | _) | _ | _ | _ | _ | _ <;> rcases expired with _ | _ | _ | _ | _ | _ <;>
    first | exact h.elim | exact ⟨h, h⟩

theorem CallerAt.ret {r : Place WaiterPoint} (h : CallerAt c d r) :
    d.ret = none ∧ (c.phase = .sent ∨ c.phase = .blocked) ∨
      c.phase = .woken ∧ d.ret = some 0 ∨ c.phase = .expired ∧ d.ret = some (-1) := by
  cases r with
  | done => exact .inr h
  | entering p =>
    rcases p with (_ | _) | _ | _ | _ | _ | _ <;> first | exact h.elim | exact .inl ⟨h.2, by simp [h.1]⟩
  | inside p =>
    rcases p with (_ | _) | (_ | _) | _ | _ | _ | _ <;>
      first | exact h.elim | exact .inl ⟨h.2, by simp [h.1]⟩ | exact .inl ⟨h.2.2, by simp [h.1]⟩
  | waiting woken expired =>
    rcases woken with (_ | _) | _ | _ | _ | _ | _ <;> rcases expired with _ | _ | _ | _ | _ | _ <;>
      first | exact h.elim | exact .inl ⟨h.2, by simp [h.1]⟩

theorem CallerAt.store {r : Place WaiterPoint} (h : CallerAt c d r) (hr : ∀ q, r ≠ .inside q) :
    CallerAt { c with signaled := true } { d with signaled := true, moves := .store :: d.moves } r := by
  cases r with
  | inside q => exact absurd rfl (hr q)
  | entering q => rcases q with (_ | _) | _ | _ | _ | _ | _ <;> exact h
  | waiting woken expired =>
    rcases woken with (_ | _) | _ | _ | _ | _ | _ <;> rcases expired with _ | _ | _ | _ | _ | _ <;> exact h
  | done => exact h

end Caller

/-- The assertions are those of a proof outline. -/
theorem waiter_outline (c : Call) :
    Outline waiterCode (WaiterAt c : Option ι → Place WaiterPoint → Waiter → Prop) where
  lock := by
    intro t p d h
    cases t with
    | none =>
      obtain ⟨c', hrun, hsignaled, hat⟩ := h
      exact ⟨c', hrun, hsignaled, hat.lock⟩
    | some k => cases p <;> first | exact h | exact h.elim
  go := by
    intro t p q d d' h hcode
    cases t with
    | none =>
      obtain ⟨c', hrun, hsignaled, hat⟩ := h
      obtain ⟨rfl, hat'⟩ := hat.go hcode
      exact ⟨c', hrun, hsignaled, hat'⟩
    | some k =>
      cases p with
      | store =>
        cases hcode
        trivial
      | signal => cases hcode
      | unlock => cases hcode
      | _ => exact h.elim
  wait := by
    intro t p d d' woken expired h hcode
    cases t with
    | none =>
      obtain ⟨c', hrun, hsignaled, hat⟩ := h
      obtain ⟨c'', ⟨hmoves, rfl⟩ | ⟨hmoves, hwait⟩, hsignaled', hat'⟩ := hat.wait hsignaled hcode
      · exact ⟨c'', hmoves ▸ hrun, hsignaled', hat'⟩
      · exact ⟨c'', hmoves ▸ run_moved hrun hwait, hsignaled', hat'⟩
    | some k =>
      cases p with
      | store => cases hcode
      | signal => cases hcode
      | unlock => cases hcode
      | _ => exact h.elim
  signal := by
    intro t p q d h hcode
    cases p with
    | test again => cases hs : d.signaled <;> simp [waiterCode, hs] at hcode
    | signal =>
      cases hcode
      cases t with
      | none => exact h.elim fun _ hat => hat.2.2.elim
      | some k => trivial
    | _ => cases hcode
  leave := by
    intro t p d d' h hcode
    cases t with
    | none =>
      obtain ⟨c', hrun, hsignaled, hat⟩ := h
      obtain ⟨m, c'', hmoves, hmove, hsignaled', hat'⟩ := hat.leave hsignaled hcode
      exact ⟨c'', hmoves ▸ run_moved hrun hmove, hsignaled', hat'⟩
    | some k => trivial
  woken := by
    intro t woken expired d h
    cases t with
    | none =>
      obtain ⟨c', hrun, hsignaled, hat⟩ := h
      exact ⟨c', hrun, hsignaled, hat.woken.1⟩
    | some k => exact h.elim
  expired := by
    intro t woken expired d h
    cases t with
    | none =>
      obtain ⟨c', hrun, hsignaled, hat⟩ := h
      exact ⟨c', hrun, hsignaled, hat.woken.2⟩
    | some k => exact h.elim
  stable := by
    intro t u p r d d' htu h hstores hr hu
    cases u with
    | some k => exact hu
    | none =>
      obtain ⟨c', hrun, hsignaled, hat⟩ := hu
      cases t with
      | none => exact absurd rfl htu
      | some k =>
        cases hstores with
        | go hcode =>
          cases p with
          | store =>
            cases hcode
            exact ⟨_, run_moved hrun rfl, rfl, hat.store hr⟩
          | signal => cases hcode
          | unlock => cases hcode
          | _ => exact h.elim
        | wait hcode =>
          cases p with
          | store => cases hcode
          | signal => cases hcode
          | unlock => cases hcode
          | _ => exact h.elim
        | leave hcode =>
          cases p with
          | store => cases hcode
          | signal => cases hcode
          | unlock =>
            cases hcode
            exact ⟨c', hrun, hsignaled, hat⟩
          | _ => exact h.elim

/-- Who can still take the flag without waiting. -/
def WaiterPoint.Eager : WaiterPoint → Prop
  | .test _ | .take _ => True
  | _ => False

theorem waiter_signals :
    Signals waiterCode (fun d => d.signaled = true) WaiterPoint.Eager (· = .signal) where
  wait := by
    intro p d d' woken expired hcode
    cases p with
    | test again =>
      cases hs : d.signaled <;> simp [waiterCode, hs] at hcode
      obtain ⟨rfl, rfl, rfl⟩ := hcode
      cases again <;> simp [WaiterPoint.Eager, hs]
    | _ => cases hcode
  takes := by
    intro p d d' hp hcode
    cases p with
    | test again => cases hs : d.signaled <;> simp [waiterCode, hs] at hcode
    | take again =>
      cases hcode
      exact Bool.false_ne_true
    | _ => exact hp.elim
  keeps := by
    intro p q d d' hp hcode _
    cases p with
    | test again =>
      cases hs : d.signaled <;> simp [waiterCode, hs] at hcode
      rw [← hcode.2]
      trivial
    | take again => cases hcode
    | _ => exact hp.elim
  makes := by
    intro p q d d' hcode hpending hnot
    cases p with
    | test again =>
      cases hs : d.signaled <;> simp [waiterCode, hs] at hcode
      exact absurd hs hnot
    | store =>
      cases hcode
      rfl
    | _ => cases hcode
  leaves := by
    intro p d d' hcode hpending
    cases p with
    | test again => cases hs : d.signaled <;> simp [waiterCode, hs] at hcode
    | take again =>
      cases hcode
      cases hpending
    | failed =>
      cases hcode
      exact hpending
    | unlock =>
      cases hcode
      exact hpending
    | _ => cases hcode
  about := by
    rintro p rfl d
    exact ⟨.unlock, rfl⟩

/-- Everything that holds in a run. -/
structure WaiterInv (c : Call) (s : State (Option ι) Waiter WaiterPoint) : Prop where
  exclusive : Exclusive s
  outline : ∀ t, WaiterAt c t (s.place t) s.data
  awake : Awake (fun d => d.signaled = true) WaiterPoint.Eager (· = .signal) s

theorem WaiterInv.not_eager {s : State (Option ι) Waiter WaiterPoint} (h : WaiterInv c s) (k : ι) :
    ¬ s.Eager WaiterPoint.Eager (some k) := by
  rintro ⟨p, hp, heager⟩
  have hat : WakerAt (s.place (some k)) := h.outline (some k)
  rcases hp with hp | hp <;> rw [hp] at hat <;> cases p <;> first | exact hat | exact heager

/-- No wakeup is lost: when the flag is up and the thread of the call sleeps, a wake is about to signal. -/
theorem WaiterInv.signaling {s : State (Option ι) Waiter WaiterPoint} (h : WaiterInv c s)
    (hsignaled : s.data.signaled = true) {woken expired : WaiterPoint}
    (hwaiting : s.place none = .waiting woken expired) : ∃ k, s.place (some k) = .inside .signal := by
  rcases h.awake.awake hsignaled with ⟨t, ht⟩ | ⟨t, p, hp, rfl⟩ | hnone
  · cases t with
    | none =>
      obtain ⟨p, hp | hp, -⟩ := ht <;> rw [hwaiting] at hp <;> cases hp
    | some k => exact absurd ht (h.not_eager k)
  · cases t with
    | none =>
      rw [hwaiting] at hp
      cases hp
    | some k => exact ⟨k, hp⟩
  · exact absurd hwaiting (hnone none woken expired)

theorem WaiterInv.caller {s : State (Option ι) Waiter WaiterPoint} (h : WaiterInv c s) :
    ∃ c', Runs.run CallMove.step c s.data.moves.reverse = some c' ∧ c'.signaled = s.data.signaled ∧
      CallerAt c' s.data (s.place none) := h.outline none

variable [DecidableEq ι]

theorem WaiterInv.run (hphase : c.phase = .sent) (hsignaled : c.signaled = false)
    {s : State (Option ι) Waiter WaiterPoint}
    (hrun : Relation.ReflTransGen (Step waiterCode) waiterStart s) : WaiterInv c s := by
  induction hrun with
  | refl =>
    refine ⟨Exclusive.start _ _, ?_, nofun, nofun⟩
    intro t
    cases t with
    | none => exact ⟨c, rfl, hsignaled, hphase, rfl⟩
    | some k => trivial
  | tail _ hstep ih =>
    exact ⟨ih.exclusive.step hstep, (waiter_outline c).step ih.exclusive ih.outline hstep,
      ih.awake.step waiter_signals hstep⟩

/-- The thread of the call takes the lock at a test, finds the flag up, and returns. -/
theorem waiter_takes {s : State (Option ι) Waiter WaiterPoint} {again : Bool}
    (hplace : s.place none = .entering (.test again)) (hfree : s.locked = false)
    (hsignaled : s.data.signaled = true) :
    ∃ s', Relation.ReflTransGen (Step waiterCode) s s' ∧ s'.data.ret = some 0 := by
  have hlock : Step waiterCode s (s.moved none (.inside (.test again)) true s.data) := .lock hplace hfree
  have hgo : Step waiterCode (s.moved none (.inside (.test again)) true s.data)
      ((s.moved none (.inside (.test again)) true s.data).moved none (.inside (.take again)) true s.data) :=
    .go (State.moved_self ..) (if_pos hsignaled)
  exact ⟨_, .tail (.tail (.single hlock) hgo) (.leave (State.moved_self ..) rfl), rfl⟩

/-- `rpc_waiter_wait` and any number of calls of `rpc_waiter_wake`, in any order of their steps, with
wakeups for no reason and timeouts at any time. The lock keeps them apart; what they did so far is a
sequence of moves of the call, which has the flag and the return value; nobody loses a wakeup; and with
the flag up and the lock free a thread that has not timed out returns 0. -/
theorem waiter_refines (hphase : c.phase = .sent) (hsignaled : c.signaled = false)
    {s : State (Option ι) Waiter WaiterPoint}
    (hrun : Relation.ReflTransGen (Step waiterCode) waiterStart s) :
    Exclusive s ∧
      (∃ c', Runs.run CallMove.step c s.data.moves.reverse = some c' ∧ c'.signaled = s.data.signaled ∧
        (s.data.ret = some 0 ↔ c'.phase = .woken) ∧ (s.data.ret = some (-1) ↔ c'.phase = .expired)) ∧
      (s.data.signaled = true → ∀ woken expired, s.place none = .waiting woken expired →
        ∃ k, s.place (some k) = .inside .signal) ∧
      (s.data.signaled = true → s.locked = false → s.data.ret = none → s.place none ≠ .entering .failed →
        ∃ s', Relation.ReflTransGen (Step waiterCode) s s' ∧ s'.data.ret = some 0) := by
  have h := WaiterInv.run hphase hsignaled hrun
  obtain ⟨c', hmoves, hflag, hat⟩ := h.caller
  refine ⟨h.exclusive, ⟨c', hmoves, hflag, ?_⟩, fun hup _ _ => h.signaling hup, ?_⟩
  · rcases hat.ret with ⟨hret, hphase' | hphase'⟩ | ⟨hphase', hret⟩ | ⟨hphase', hret⟩ <;>
      simp [hret, hphase']
  · intro hup hfree hret hplace
    cases hcaller : s.place none with
    | entering p =>
      rw [hcaller] at hat hplace
      cases p with
      | test again => exact waiter_takes hcaller hfree hup
      | failed => exact absurd rfl hplace
      | _ => exact hat.elim
    | inside p => exact absurd hcaller (h.exclusive.free hfree none p)
    | waiting woken expired =>
      obtain ⟨k, hk⟩ := h.signaling hup hcaller
      exact absurd hk (h.exclusive.free hfree (some k) .signal)
    | done =>
      rw [hcaller] at hat
      rcases hat with ⟨-, hret'⟩ | ⟨-, hret'⟩ <;> rw [hret] at hret' <;> cases hret'

/-- A call, and a wake that comes before it waits. -/
theorem waiter_refines_early :
    ∃ s : State (Option Unit) Waiter WaiterPoint,
      Relation.ReflTransGen (Step waiterCode) waiterStart s ∧ s.data.ret = some 0 := by
  have hcall : ∃ c : Call, c.phase = .sent ∧ c.signaled = false :=
    ⟨⟨0, none, 0, none, 0, 0, false, false, .sent, by simp⟩, rfl, rfl⟩
  obtain ⟨c, hphase, hsignaled⟩ := hcall
  have hrun : ∃ s : State (Option Unit) Waiter WaiterPoint,
      Relation.ReflTransGen (Step waiterCode) waiterStart s ∧ s.data.signaled = true ∧ s.locked = false ∧
        s.data.ret = none ∧ s.place none = .entering (.test false) := by
    refine ⟨_, .tail (.tail (.tail (.single (.lock (t := some ()) rfl rfl)) (.go (State.moved_self ..) rfl))
      (.signalNone (State.moved_self ..) rfl ?_)) (.leave (State.moved_self ..) rfl), rfl, rfl, rfl, rfl⟩
    rintro (_ | _) woken expired <;> exact nofun
  obtain ⟨s, hrun, hup, hfree, hret, hplace⟩ := hrun
  obtain ⟨s', hrest, hret'⟩ := (waiter_refines hphase hsignaled hrun).2.2.2 hup hfree hret (by simp [hplace])
  exact ⟨s', hrun.trans hrest, hret'⟩

end CcRpc
