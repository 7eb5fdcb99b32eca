import Mathlib

/-!
# Runs of a step function

A step function takes a state and an action to the next state, or refuses the action. A run
applies a list of actions in order. What one step preserves, a run preserves.
-/

namespace Runs

variable {σ α : Type} (step : σ → α → Option σ)

/-- The state after a list of actions, if none of them is refused. -/
def run (s : σ) : List α → Option σ
  | [] => some s
  | a :: as => (step s a).bind fun s' => run s' as

/-- Every step of the run meets `C` in the state it is taken in. -/
def Along (C : σ → α → Prop) (s : σ) : List α → Prop
  | [] => True
  | a :: as => C s a ∧ ∀ s', step s a = some s' → Along C s' as

variable {step}

@[simp] theorem run_nil (s : σ) : run step s [] = some s := rfl

theorem run_cons {s s' : σ} {a : α} {as : List α} :
    run step s (a :: as) = some s' ↔ ∃ m, step s a = some m ∧ run step m as = some s' := by
  simp [run, Option.bind_eq_some_iff]

theorem run_append {s s' : σ} {as bs : List α} :
    run step s (as ++ bs) = some s' ↔ ∃ m, run step s as = some m ∧ run step m bs = some s' := by
  induction as generalizing s with
  | nil => simp
  | cons a as ih =>
    simp only [List.cons_append, run_cons, ih]
    constructor
    · rintro ⟨m, hm, n, hn, h⟩
      exact ⟨n, ⟨m, hm, hn⟩, h⟩
    · rintro ⟨n, ⟨m, hm, hn⟩, h⟩
      exact ⟨m, hm, n, hn, h⟩

theorem along_of_forall {C : α → Prop} {s : σ} {as : List α} (h : ∀ a ∈ as, C a) :
    Along step (fun _ => C) s as := by
  induction as generalizing s with
  | nil => trivial
  | cons a as ih => exact ⟨h a (by simp), fun s' _ => ih fun b hb => h b (by simp [hb])⟩

theorem run_induction {C : σ → α → Prop} {P : σ → Prop}
    (hstep : ∀ s a s', P s → C s a → step s a = some s' → P s') {s s' : σ} {as : List α}
    (hs : P s) (hc : Along step C s as) (hr : run step s as = some s') : P s' := by
  induction as generalizing s with
  | nil =>
    cases hr
    exact hs
  | cons a as ih =>
    obtain ⟨m, hm, hr⟩ := run_cons.mp hr
    exact ih (hstep s a m hs hc.1 hm) (hc.2 m hm) hr

theorem run_total {C : σ → α → Prop} {P : σ → Prop}
    (hstep : ∀ s a, P s → C s a → ∃ s', step s a = some s' ∧ P s') {s : σ} {as : List α}
    (hs : P s) (hc : Along step C s as) : ∃ s', run step s as = some s' ∧ P s' := by
  induction as generalizing s with
  | nil => exact ⟨s, rfl, hs⟩
  | cons a as ih =>
    obtain ⟨m, hm, hP⟩ := hstep s a hs hc.1
    obtain ⟨s', hr, hP'⟩ := ih hP (hc.2 m hm)
    exact ⟨s', run_cons.mpr ⟨m, hm, hr⟩, hP'⟩

/-- An invariant of the step function holds after every run. -/
theorem run_invariant {P : σ → Prop} (hstep : ∀ s a s', P s → step s a = some s' → P s')
    {s s' : σ} {as : List α} (hs : P s) (hr : run step s as = some s') : P s' := by
  induction as generalizing s with
  | nil =>
    cases hr
    exact hs
  | cons a as ih =>
    obtain ⟨m, hm, hr⟩ := run_cons.mp hr
    exact ih (hstep s a m hs hm) hr

theorem run_foldl {τ : Type} {L : σ → α → Prop} {f : τ → α → τ} {I : σ → τ → Prop}
    (hstep : ∀ s t a, I s t → L s a → ∃ s', step s a = some s' ∧ I s' (f t a)) {s : σ} {t : τ}
    {as : List α} (hs : I s t) (hl : Along step L s as) :
    ∃ s', run step s as = some s' ∧ I s' (as.foldl f t) := by
  induction as generalizing s t with
  | nil => exact ⟨s, rfl, hs⟩
  | cons a as ih =>
    obtain ⟨m, hm, hI⟩ := hstep s t a hs hl.1
    obtain ⟨s', hr, hI'⟩ := ih hI (hl.2 m hm)
    exact ⟨s', run_cons.mpr ⟨m, hm, hr⟩, hI'⟩

/-- Steps that are legal for the abstraction, each doing to a state what `f` does to its abstraction. -/
theorem run_refines {τ : Type} {f : τ → α → τ} {L : τ → α → Prop} {I : σ → τ → Prop}
    (hstep : ∀ s t a, I s t → L t a → ∃ s', step s a = some s' ∧ I s' (f t a)) {s : σ} {t : τ}
    {as : List α} (hs : I s t) (hl : Along (fun t a => some (f t a)) L t as) :
    ∃ s', run step s as = some s' ∧ I s' (as.foldl f t) := by
  induction as generalizing s t with
  | nil => exact ⟨s, rfl, hs⟩
  | cons a as ih =>
    obtain ⟨m, hm, hI⟩ := hstep s t a hs hl.1
    obtain ⟨s', hr, hI'⟩ := ih hI (hl.2 _ rfl)
    exact ⟨s', run_cons.mpr ⟨m, hm, hr⟩, hI'⟩

/-- In a run of legal steps that meet `C`, where such a step is safe and keeps the invariant, every
step is safe. -/
theorem along_imp {I : σ → Prop} {L C S : σ → α → Prop}
    (hstep : ∀ s a, I s → L s a → C s a → S s a ∧ ∃ s', step s a = some s' ∧ I s') {s : σ}
    {as : List α} (hs : I s) (hl : Along step L s as) (hc : Along step C s as) :
    Along step S s as := by
  induction as generalizing s with
  | nil => trivial
  | cons a as ih =>
    obtain ⟨hS, s', hs', hI⟩ := hstep s a hs hl.1 hc.1
    refine ⟨hS, fun t ht => ?_⟩
    rw [hs'] at ht
    cases ht
    exact ih hI (hl.2 s' hs') (hc.2 s' hs')

/-- If moreover a legal step is safe only where it meets `C`, every step of a run is safe exactly when
every step meets `C`. -/
theorem along_iff {I : σ → Prop} {L C S : σ → α → Prop}
    (hsafe : ∀ s a, I s → L s a → S s a → C s a)
    (hstep : ∀ s a, I s → L s a → C s a → S s a ∧ ∃ s', step s a = some s' ∧ I s') {s : σ}
    {as : List α} (hs : I s) (hl : Along step L s as) : Along step S s as ↔ Along step C s as := by
  refine ⟨fun h => ?_, along_imp hstep hs hl⟩
  exact along_imp (C := S) (fun s a hI hL hS => ⟨hsafe s a hI hL hS,
    (hstep s a hI hL (hsafe s a hI hL hS)).2⟩) hs hl h

theorem along_isSome {s s' : σ} {as : List α} (hr : run step s as = some s') :
    Along step (fun s a => (step s a).isSome) s as := by
  induction as generalizing s with
  | nil => trivial
  | cons a as ih =>
    obtain ⟨m, hm, hr⟩ := run_cons.mp hr
    refine ⟨Option.isSome_iff_exists.mpr ⟨m, hm⟩, fun t ht => ?_⟩
    rw [hm] at ht
    cases ht
    exact ih hr

theorem along_forall_iff {P : σ → Prop} {L : σ → α → Prop} {C : α → Prop}
    (hstep : ∀ s a, P s → L s a → C a → ∃ s', step s a = some s' ∧ P s') {s : σ} {as : List α}
    (hs : P s) (hl : Along step L s as) : Along step (fun _ => C) s as ↔ ∀ a ∈ as, C a := by
  refine ⟨fun h => ?_, along_of_forall⟩
  induction as generalizing s with
  | nil => simp
  | cons a as ih =>
    obtain ⟨s', hs', hP⟩ := hstep s a hs hl.1 h.1
    exact List.forall_mem_cons.mpr ⟨h.1, ih hP (hl.2 s' hs') (h.2 s' hs')⟩

/-- A loop whose body takes a state to the next one, or leaves the loop, goes round `k` times. -/
inductive Iterates (body : σ → Option σ) : Nat → σ → σ → Prop where
  | zero (s : σ) : Iterates body 0 s s
  | succ {k : Nat} {s m s' : σ} (hs : body s = some m) (h : Iterates body k m s') :
      Iterates body (k + 1) s s'

theorem Iterates.mul_add_le {body : σ → Option σ} {μ : σ → Nat} {d k : Nat} {s s' : σ}
    (h : Iterates body k s s')
    (hfall : ∀ j m n, Iterates body j s m → body m = some n → μ n + d ≤ μ m) :
    d * k + μ s' ≤ μ s := by
  induction h with
  | zero s => omega
  | succ hs h ih =>
    have hfirst := hfall 0 _ _ (.zero _) hs
    have hrest := ih fun j m n hj hm => hfall (j + 1) m n (.succ hs hj) hm
    rw [Nat.mul_succ]
    omega

end Runs
