import Mathlib

/-!
# Monitors

Data under a mutex and a condition variable. Threads are calls: each waits for the lock, runs its code
with the lock held, may wait on the condition variable in between, and ends when it leaves. A thread
that waits can be signaled, can wake for no reason, and can time out; in each case it waits for the lock
again before it goes on.
-/

namespace Monitor

variable {τ σ π : Type}

/-- What the code does at a point, with the lock held. -/
inductive Move (σ π : Type) where
  | go (d : σ) (c : π)
  /-- The lock is given up; the thread goes on at one point when it is woken, at another when it times
  out. -/
  | wait (d : σ) (woken expired : π)
  | signal (c : π)
  /-- The lock is given up for good. -/
  | leave (d : σ)

/-- Where a thread is. -/
inductive Place (π : Type) where
  | entering (c : π)
  | inside (c : π)
  | waiting (woken expired : π)
  | done

structure State (τ σ π : Type) where
  data : σ
  locked : Bool
  place : τ → Place π

/-- No thread has the lock yet. -/
def State.start (d : σ) (entry : τ → π) : State τ σ π := ⟨d, false, fun t => .entering (entry t)⟩

/-- A thread is inside when the lock is taken, and only one. -/
structure Exclusive (s : State τ σ π) : Prop where
  one : ∀ {t u c c'}, s.place t = .inside c → s.place u = .inside c' → t = u
  free : s.locked = false → ∀ t c, s.place t ≠ .inside c
  taken : s.locked = true → ∃ t c, s.place t = .inside c

section Exclusive

variable {s : State τ σ π} {t u : τ} {c : π}

theorem Exclusive.start (d : σ) (entry : τ → π) : Exclusive (State.start d entry) :=
  ⟨nofun, nofun, nofun⟩

theorem Exclusive.alone (h : Exclusive s) (ht : s.place t = .inside c) (hu : u ≠ t) (c' : π) :
    s.place u ≠ .inside c' := fun hin => hu (h.one hin ht)

theorem Exclusive.locked (h : Exclusive s) (ht : s.place t = .inside c) : s.locked = true := by
  cases hlocked : s.locked with
  | true => rfl
  | false => exact absurd ht (h.free hlocked t c)

end Exclusive

variable [DecidableEq τ]

/-- A thread moves, and leaves the lock and the data so. -/
def State.moved (s : State τ σ π) (t : τ) (p : Place π) (locked : Bool) (d : σ) : State τ σ π :=
  ⟨d, locked, Function.update s.place t p⟩

/-- One step of one thread. A signal wakes a thread that waits, if there is one. -/
inductive Step (code : π → σ → Move σ π) : State τ σ π → State τ σ π → Prop where
  | lock {s t c} (ht : s.place t = .entering c) (hfree : s.locked = false) :
      Step code s (s.moved t (.inside c) true s.data)
  | go {s t c d c'} (ht : s.place t = .inside c) (hcode : code c s.data = .go d c') :
      Step code s (s.moved t (.inside c') s.locked d)
  | wait {s t c d woken expired} (ht : s.place t = .inside c)
      (hcode : code c s.data = .wait d woken expired) :
      Step code s (s.moved t (.waiting woken expired) false d)
  | signal {s t c c' u woken expired} (ht : s.place t = .inside c) (hcode : code c s.data = .signal c')
      (hu : s.place u = .waiting woken expired) :
      Step code s ((s.moved t (.inside c') s.locked s.data).moved u (.entering woken) s.locked s.data)
  | signalNone {s t c c'} (ht : s.place t = .inside c) (hcode : code c s.data = .signal c')
      (hnone : ∀ u woken expired, s.place u ≠ .waiting woken expired) :
      Step code s (s.moved t (.inside c') s.locked s.data)
  | leave {s t c d} (ht : s.place t = .inside c) (hcode : code c s.data = .leave d) :
      Step code s (s.moved t .done false d)
  | spurious {s t woken expired} (ht : s.place t = .waiting woken expired) :
      Step code s (s.moved t (.entering woken) s.locked s.data)
  | timeout {s t woken expired} (ht : s.place t = .waiting woken expired) :
      Step code s (s.moved t (.entering expired) s.locked s.data)

variable {code : π → σ → Move σ π} {s s' : State τ σ π} {t u : τ} {c : π}

@[simp] theorem State.moved_data (p : Place π) (b : Bool) (d : σ) : (s.moved t p b d).data = d := rfl
@[simp] theorem State.moved_locked (p : Place π) (b : Bool) (d : σ) : (s.moved t p b d).locked = b := rfl
@[simp] theorem State.moved_self (p : Place π) (b : Bool) (d : σ) : (s.moved t p b d).place t = p :=
  Function.update_self ..
theorem State.moved_of_ne (hu : u ≠ t) (p : Place π) (b : Bool) (d : σ) :
    (s.moved t p b d).place u = s.place u := Function.update_of_ne hu ..

/-- The thread that moves is the only one that may be inside. -/
theorem exclusive_of_alone (halone : ∀ u ≠ t, ∀ c, s.place u ≠ .inside c) {p : Place π} {b : Bool}
    (hp : b = true ↔ ∃ c, p = .inside c) (d : σ) : Exclusive (s.moved t p b d) := by
  have hinside : ∀ u c, (s.moved t p b d).place u = .inside c → u = t := by
    intro u c hu
    by_contra hne
    rw [State.moved_of_ne hne] at hu
    exact halone u hne c hu
  constructor
  · intro u v c c' hu hv
    rw [hinside u c hu, hinside v c' hv]
  · intro hb u c hu
    have heq := hinside u c hu
    subst heq
    rw [State.moved_self] at hu
    have htrue := hp.mpr ⟨c, hu⟩
    rw [State.moved_locked, htrue] at hb
    cases hb
  · intro hb
    obtain ⟨c, hc⟩ := hp.mp hb
    exact ⟨t, c, by rw [State.moved_self, hc]⟩

theorem Exclusive.outside (h : Exclusive s) (ht : ∀ c, s.place t ≠ .inside c) {p : Place π}
    (hp : ∀ c, p ≠ .inside c) (d : σ) : Exclusive (s.moved t p s.locked d) := by
  have hsame : ∀ u c, (s.moved t p s.locked d).place u = .inside c ↔ s.place u = .inside c := by
    intro u c
    by_cases hut : u = t
    · subst hut
      rw [State.moved_self]
      exact ⟨fun hpc => absurd hpc (hp c), fun huc => absurd huc (ht c)⟩
    · rw [State.moved_of_ne hut]
  constructor
  · intro u v c c' hu hv
    exact h.one ((hsame u c).mp hu) ((hsame v c').mp hv)
  · intro hfree u c hu
    exact h.free hfree u c ((hsame u c).mp hu)
  · intro hlocked
    obtain ⟨u, c, hu⟩ := h.taken hlocked
    exact ⟨u, c, (hsame u c).mpr hu⟩

theorem Exclusive.step (h : Exclusive s) (hstep : Step code s s') : Exclusive s' := by
  cases hstep with
  | lock ht hfree =>
    apply exclusive_of_alone fun u _ => h.free hfree u
    simp
  | go ht hcode =>
    rw [h.locked ht]
    apply exclusive_of_alone fun u hu => h.alone ht hu
    simp
  | wait ht hcode =>
    apply exclusive_of_alone fun u hu => h.alone ht hu
    simp
  | @signal t c c' u woken expired ht hcode hu =>
    have hinside : Exclusive (s.moved t (.inside c') s.locked s.data) := by
      rw [h.locked ht]
      apply exclusive_of_alone fun u hu => h.alone ht hu
      simp
    have hut : u ≠ t := by
      rintro rfl
      rw [ht] at hu
      cases hu
    apply hinside.outside
    · intro c
      rw [State.moved_of_ne hut, hu]
      exact nofun
    · exact nofun
  | signalNone ht hcode hnone =>
    rw [h.locked ht]
    apply exclusive_of_alone fun u hu => h.alone ht hu
    simp
  | leave ht hcode =>
    apply exclusive_of_alone fun u hu => h.alone ht hu
    simp
  | spurious ht =>
    apply h.outside
    · intro c
      rw [ht]
      exact nofun
    · exact nofun
  | timeout ht =>
    apply h.outside
    · intro c
      rw [ht]
      exact nofun
    · exact nofun

/-- A move at `c` leaves the data `d'`. -/
inductive Stores (code : π → σ → Move σ π) (c : π) (d d' : σ) : Prop where
  | go {c'} (h : code c d = .go d' c')
  | wait {woken expired} (h : code c d = .wait d' woken expired)
  | leave (h : code c d = .leave d')

/-- An assertion for each thread and each place it can be at: a thread's own moves take it from one to
the next, and the stores of a thread with the lock keep those of the others. -/
structure Outline (code : π → σ → Move σ π) (A : τ → Place π → σ → Prop) : Prop where
  lock : ∀ {t c d}, A t (.entering c) d → A t (.inside c) d
  go : ∀ {t c c' d d'}, A t (.inside c) d → code c d = .go d' c' → A t (.inside c') d'
  wait : ∀ {t c d d' woken expired}, A t (.inside c) d → code c d = .wait d' woken expired →
    A t (.waiting woken expired) d'
  signal : ∀ {t c c' d}, A t (.inside c) d → code c d = .signal c' → A t (.inside c') d
  leave : ∀ {t c d d'}, A t (.inside c) d → code c d = .leave d' → A t .done d'
  woken : ∀ {t woken expired d}, A t (.waiting woken expired) d → A t (.entering woken) d
  expired : ∀ {t woken expired d}, A t (.waiting woken expired) d → A t (.entering expired) d
  stable : ∀ {t u c p d d'}, t ≠ u → A t (.inside c) d → Stores code c d d' → (∀ c', p ≠ .inside c') →
    A u p d → A u p d'

variable {A : τ → Place π → σ → Prop}

private theorem holds_moved (h : ∀ t, A t (s.place t) s.data) {p : Place π} {b : Bool} {d : σ}
    (ht : A t p d) (hothers : ∀ u ≠ t, A u (s.place u) s.data → A u (s.place u) d) :
    ∀ u, A u ((s.moved t p b d).place u) (s.moved t p b d).data := by
  intro u
  by_cases hut : u = t
  · subst hut
    simpa using ht
  · rw [State.moved_of_ne hut]
    exact hothers u hut (h u)

/-- Where all assertions hold they hold after a step. -/
theorem Outline.step (hA : Outline code A) (hone : Exclusive s) (h : ∀ t, A t (s.place t) s.data)
    (hstep : Step code s s') : ∀ t, A t (s'.place t) s'.data := by
  have hat : ∀ {t p}, s.place t = p → A t p s.data := fun ht => ht ▸ h _
  have hstores : ∀ {t c d}, s.place t = .inside c → Stores code c s.data d →
      ∀ u ≠ t, A u (s.place u) s.data → A u (s.place u) d :=
    fun ht hd u hu hkeep => hA.stable hu.symm (hat ht) hd (hone.alone ht hu) hkeep
  cases hstep with
  | lock ht hfree => exact holds_moved h (hA.lock (hat ht)) fun _ _ => id
  | go ht hcode => exact holds_moved h (hA.go (hat ht) hcode) (hstores ht (.go hcode))
  | wait ht hcode => exact holds_moved h (hA.wait (hat ht) hcode) (hstores ht (.wait hcode))
  | signal ht hcode hu =>
    have hfirst := holds_moved (b := s.locked) h (hA.signal (hat ht) hcode) fun _ _ => id
    exact holds_moved hfirst (hA.woken (hat hu)) fun _ _ => id
  | signalNone ht hcode hnone => exact holds_moved h (hA.signal (hat ht) hcode) fun _ _ => id
  | leave ht hcode => exact holds_moved h (hA.leave (hat ht) hcode) (hstores ht (.leave hcode))
  | spurious ht => exact holds_moved h (hA.woken (hat ht)) fun _ _ => id
  | timeout ht => exact holds_moved h (hA.expired (hat ht)) fun _ _ => id

/-- `pending`: there is something to be taken. A thread at an eager point takes it before it waits or
leaves, and whoever makes it pending signals next. -/
structure Signals (code : π → σ → Move σ π) (pending : σ → Prop) (eager about : π → Prop) : Prop where
  wait : ∀ {c d d' woken expired}, code c d = .wait d' woken expired → ¬ pending d' ∧ eager woken
  takes : ∀ {c d d'}, eager c → code c d = .leave d' → ¬ pending d'
  keeps : ∀ {c c' d d'}, eager c → code c d = .go d' c' → pending d' → eager c'
  makes : ∀ {c c' d d'}, code c d = .go d' c' → pending d' → ¬ pending d → about c'
  leaves : ∀ {c d d'}, code c d = .leave d' → pending d' → pending d
  about : ∀ {c}, about c → ∀ d, ∃ c', code c d = .signal c'

/-- A thread is on its way to an eager point or at one. -/
def State.Eager (s : State τ σ π) (eager : π → Prop) (t : τ) : Prop :=
  ∃ c, (s.place t = .entering c ∨ s.place t = .inside c) ∧ eager c

/-- Nobody sleeps while something is pending, unless somebody else is awake to take it or to signal. -/
structure Awake (pending : σ → Prop) (eager about : π → Prop) (s : State τ σ π) : Prop where
  waiting : ∀ {t woken expired}, s.place t = .waiting woken expired → eager woken
  awake : pending s.data → (∃ t, s.Eager eager t) ∨ (∃ t c, s.place t = .inside c ∧ about c) ∨
    ∀ t woken expired, s.place t ≠ .waiting woken expired

section Awake

variable {pending : σ → Prop} {eager about : π → Prop}

omit [DecidableEq τ] in
theorem State.Eager.inside (h : s.Eager eager t) (ht : s.place t = .inside c) : eager c := by
  obtain ⟨d, hd | hd, heager⟩ := h <;> rw [ht] at hd <;> cases hd
  exact heager

theorem Signals.not_about (hcode : Signals code pending eager about) {d : σ}
    (hmove : ∀ c', code c d ≠ .signal c') : ¬ about c := by
  intro habout
  obtain ⟨c', hsignal⟩ := hcode.about habout d
  exact hmove c' hsignal

theorem State.Eager.moved {p : Place π} {b : Bool} {d : σ} (h : s.Eager eager u) (hu : u ≠ t) :
    (s.moved t p b d).Eager eager u := by
  obtain ⟨c, hc, heager⟩ := h
  exact ⟨c, by rwa [State.moved_of_ne hu], heager⟩

private theorem Awake.others (h : Awake pending eager about s) (ht : ¬ s.Eager eager t) {p : Place π} {b : Bool}
    {d : σ} (hp : ∀ woken expired, p ≠ .waiting woken expired)
    (habout : ∀ {c}, s.place t = .inside c → ¬ about c) (hpending : pending s.data) :
    (∃ u, (s.moved t p b d).Eager eager u) ∨ (∃ u c, (s.moved t p b d).place u = .inside c ∧ about c) ∨
      ∀ u woken expired, (s.moved t p b d).place u ≠ .waiting woken expired := by
  rcases h.awake hpending with ⟨u, hu⟩ | ⟨u, c, hu, hc⟩ | hnone
  · have hut : u ≠ t := by
      rintro rfl
      exact ht hu
    exact .inl ⟨u, hu.moved hut⟩
  · have hut : u ≠ t := by
      rintro rfl
      exact habout hu hc
    exact .inr (.inl ⟨u, c, by rwa [State.moved_of_ne hut], hc⟩)
  · refine .inr (.inr fun u woken expired => ?_)
    by_cases hut : u = t
    · subst hut
      rw [State.moved_self]
      exact hp woken expired
    · rw [State.moved_of_ne hut]
      exact hnone u woken expired

private theorem Awake.waiting_moved (h : Awake pending eager about s) {p : Place π} {b : Bool} {d : σ}
    (hp : ∀ woken expired, p = .waiting woken expired → eager woken) {woken expired : π}
    (hu : (s.moved t p b d).place u = .waiting woken expired) : eager woken := by
  by_cases hut : u = t
  · subst hut
    rw [State.moved_self] at hu
    exact hp woken expired hu
  · rw [State.moved_of_ne hut] at hu
    exact h.waiting hu

theorem Awake.step (hcode : Signals code pending eager about) (h : Awake pending eager about s)
    (hstep : Step code s s') : Awake pending eager about s' := by
  cases hstep with
  | @lock t c ht hfree =>
    refine ⟨h.waiting_moved (by rintro _ _ ⟨⟩), fun hpending => ?_⟩
    by_cases hc : eager c
    · exact .inl ⟨t, c, .inr (State.moved_self ..), hc⟩
    · apply h.others _ (by rintro _ _ ⟨⟩) _ hpending
      · rintro ⟨d, hd | hd, hd'⟩ <;> rw [ht] at hd <;> cases hd
        exact hc hd'
      · intro d hd
        rw [ht] at hd
        cases hd
  | @go t c d c' ht hmove =>
    refine ⟨h.waiting_moved (by rintro _ _ ⟨⟩), fun hpending => ?_⟩
    by_cases hc : eager c
    · exact .inl ⟨t, c', .inr (State.moved_self ..), hcode.keeps hc hmove hpending⟩
    · by_cases hold : pending s.data
      · apply h.others (fun ht' => hc (ht'.inside ht)) (by rintro _ _ ⟨⟩) _ hold
        intro e he
        rw [ht] at he
        cases he
        exact hcode.not_about (d := s.data) (by simp [hmove])
      · exact .inr (.inl ⟨t, c', State.moved_self .., hcode.makes hmove hpending hold⟩)
  | @wait t c d woken expired ht hmove =>
    obtain ⟨hnot, heager⟩ := hcode.wait hmove
    refine ⟨h.waiting_moved ?_, fun hpending => absurd hpending hnot⟩
    rintro _ _ ⟨⟩
    exact heager
  | @signal t c c' u woken expired ht hmove hu =>
    constructor
    · intro v woken' expired' hv
      by_cases hvu : v = u
      · subst hvu
        rw [State.moved_self] at hv
        cases hv
      · rw [State.moved_of_ne hvu] at hv
        exact h.waiting_moved (by rintro _ _ ⟨⟩) hv
    · exact fun _ => .inl ⟨u, woken, .inl (State.moved_self ..), h.waiting hu⟩
  | @signalNone t c c' ht hmove hnone =>
    refine ⟨h.waiting_moved (by rintro _ _ ⟨⟩), fun _ => .inr (.inr fun u woken expired => ?_)⟩
    by_cases hut : u = t
    · subst hut
      rw [State.moved_self]
      exact nofun
    · rw [State.moved_of_ne hut]
      exact hnone u woken expired
  | @leave t c d ht hmove =>
    refine ⟨h.waiting_moved (by rintro _ _ ⟨⟩), fun hpending => ?_⟩
    have hc : ¬ eager c := fun hc => hcode.takes hc hmove hpending
    apply h.others (fun ht' => hc (ht'.inside ht)) (by rintro _ _ ⟨⟩) _ (hcode.leaves hmove hpending)
    intro e he
    rw [ht] at he
    cases he
    exact hcode.not_about (d := s.data) (by simp [hmove])
  | @spurious t woken expired ht =>
    exact ⟨h.waiting_moved (by rintro _ _ ⟨⟩), fun _ => .inl ⟨t, woken, .inl (State.moved_self ..), h.waiting ht⟩⟩
  | @timeout t woken expired ht =>
    refine ⟨h.waiting_moved (by rintro _ _ ⟨⟩), fun hpending => ?_⟩
    apply h.others _ (by rintro _ _ ⟨⟩) _ hpending
    · rintro ⟨e, he | he, -⟩ <;> rw [ht] at he <;> cases he
    · intro e he
      rw [ht] at he
      cases he

end Awake

end Monitor
