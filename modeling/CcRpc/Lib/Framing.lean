import Mathlib

/-!
# Cutting a stream into frames

A framing tells the length of the first frame of a stream once enough of the stream is there.
The greedy split of a stream cuts whole frames off its front until the rest holds none. It can
be computed chunk by chunk: what a chunk completes depends only on the rest left before it.
-/

/-- A prefix-stable reading of the first frame's length. -/
structure Framing (α : Type) where
  need : List α → Option Nat
  need_pos : ∀ {bs n}, need bs = some n → 0 < n
  need_append : ∀ {bs n} (cs : List α), need bs = some n → need (bs ++ cs) = some n
  need_take : ∀ {bs n}, need bs = some n → n ≤ bs.length → need (bs.take n) = some n

namespace Framing

variable {α : Type} (F : Framing α)

/-- A whole frame and nothing else. -/
def IsFrame (f : List α) : Prop := F.need f = some f.length

instance (f : List α) : Decidable (F.IsFrame f) :=
  inferInstanceAs (Decidable (F.need f = some f.length))

/-- The first frame and what follows it, if the stream holds a whole frame. -/
def cut (bs : List α) : Option (List α × List α) :=
  match F.need bs with
  | some n => if n ≤ bs.length then some (bs.take n, bs.drop n) else none
  | none => none

private def splitFuel : Nat → List α → List (List α) × List α
  | 0, bs => ([], bs)
  | k + 1, bs =>
    match F.cut bs with
    | none => ([], bs)
    | some (f, rest) => (f :: (splitFuel k rest).1, (splitFuel k rest).2)

/-- The greedy split: the whole frames in front, and the rest. -/
def split (bs : List α) : List (List α) × List α := F.splitFuel bs.length bs

/-- The whole frames in front of a stream. -/
def frames (bs : List α) : List (List α) := (F.split bs).1

/-- What the stream leaves after its whole frames. -/
def rest (bs : List α) : List α := (F.split bs).2

variable {F}

theorem cut_eq_some_iff {bs f r : List α} :
    F.cut bs = some (f, r) ↔ bs = f ++ r ∧ F.IsFrame f := by
  constructor
  · intro h
    unfold cut at h
    split at h
    · next n hn =>
      split at h
      · next hle =>
        simp only [Option.some.injEq, Prod.mk.injEq] at h
        obtain ⟨rfl, rfl⟩ := h
        refine ⟨(List.take_append_drop n bs).symm, ?_⟩
        rw [IsFrame, F.need_take hn hle, List.length_take_of_le hle]
      · cases h
    · cases h
  · rintro ⟨rfl, hf⟩
    have hn := F.need_append r hf
    simp [cut, hn]

theorem IsFrame.pos {f : List α} (hf : F.IsFrame f) : 0 < f.length := F.need_pos hf

theorem cut_length_lt {bs f r : List α} (h : F.cut bs = some (f, r)) : r.length < bs.length := by
  obtain ⟨rfl, hf⟩ := cut_eq_some_iff.mp h
  have := hf.pos
  simp only [List.length_append]
  omega

private theorem splitFuel_eq (bs : List α) :
    ∀ k, bs.length ≤ k → F.splitFuel k bs = F.splitFuel bs.length bs := by
  induction hlen : bs.length using Nat.strong_induction_on generalizing bs with
  | _ n ih =>
    intro k hk
    subst hlen
    cases hc : F.cut bs with
    | none =>
      cases k <;> cases hb : bs.length <;> simp_all [splitFuel]
    | some p =>
      obtain ⟨f, r⟩ := p
      have hlt := cut_length_lt hc
      obtain ⟨k, rfl⟩ : ∃ k', k = k' + 1 := ⟨k - 1, by omega⟩
      obtain ⟨m, hm⟩ : ∃ m, bs.length = m + 1 := ⟨bs.length - 1, by omega⟩
      have hk' := ih r.length hlt r rfl k (by omega)
      have hm' := ih r.length hlt r rfl m (by omega)
      rw [hm]
      simp only [splitFuel, hc, hk', hm']

theorem split_of_cut_none {bs : List α} (h : F.cut bs = none) : F.split bs = ([], bs) := by
  unfold split
  cases bs.length <;> simp [splitFuel, h]

theorem split_of_cut_some {bs f r : List α} (h : F.cut bs = some (f, r)) :
    F.split bs = (f :: F.frames r, F.rest r) := by
  have hlt := cut_length_lt h
  obtain ⟨m, hm⟩ : ∃ m, bs.length = m + 1 := ⟨bs.length - 1, by omega⟩
  unfold split frames rest
  rw [hm]
  simp only [splitFuel, h, splitFuel_eq r m (by omega)]
  rfl

theorem frames_of_cut_none {bs : List α} (h : F.cut bs = none) : F.frames bs = [] := by
  rw [frames, split_of_cut_none h]

theorem rest_of_cut_none {bs : List α} (h : F.cut bs = none) : F.rest bs = bs := by
  rw [rest, split_of_cut_none h]

theorem frames_of_cut_some {bs f r : List α} (h : F.cut bs = some (f, r)) :
    F.frames bs = f :: F.frames r := by
  rw [frames, split_of_cut_some h]

theorem rest_of_cut_some {bs f r : List α} (h : F.cut bs = some (f, r)) :
    F.rest bs = F.rest r := by
  rw [rest, split_of_cut_some h]

theorem split_induction {motive : List α → Prop}
    (stuck : ∀ bs, F.cut bs = none → motive bs)
    (frame : ∀ f r, F.IsFrame f → motive r → motive (f ++ r)) (bs : List α) : motive bs := by
  induction hlen : bs.length using Nat.strong_induction_on generalizing bs with
  | _ n ih =>
    subst hlen
    cases hc : F.cut bs with
    | none => exact stuck bs hc
    | some p =>
      obtain ⟨f, r⟩ := p
      have hr := ih r.length (cut_length_lt hc) r rfl
      obtain ⟨rfl, hf⟩ := cut_eq_some_iff.mp hc
      exact frame f r hf hr

theorem cut_append {f : List α} (hf : F.IsFrame f) (r : List α) : F.cut (f ++ r) = some (f, r) :=
  cut_eq_some_iff.mpr ⟨rfl, hf⟩

@[simp] theorem frames_append {f : List α} (hf : F.IsFrame f) (r : List α) :
    F.frames (f ++ r) = f :: F.frames r :=
  frames_of_cut_some (cut_append hf r)

@[simp] theorem rest_append {f : List α} (hf : F.IsFrame f) (r : List α) :
    F.rest (f ++ r) = F.rest r :=
  rest_of_cut_some (cut_append hf r)

theorem frames_flatten_append_rest (bs : List α) : (F.frames bs).flatten ++ F.rest bs = bs := by
  induction bs using split_induction (F := F) with
  | stuck bs h => simp [frames_of_cut_none h, rest_of_cut_none h]
  | frame f r hf ih => simp [hf, ih]

theorem isFrame_of_mem_frames {bs f : List α} (h : f ∈ F.frames bs) : F.IsFrame f := by
  induction bs using split_induction (F := F) with
  | stuck bs hc => simp [frames_of_cut_none hc] at h
  | frame g r hg ih =>
    rw [frames_append hg, List.mem_cons] at h
    rcases h with rfl | h
    · exact hg
    · exact ih h

theorem cut_rest (bs : List α) : F.cut (F.rest bs) = none := by
  induction bs using split_induction (F := F) with
  | stuck bs h => rw [rest_of_cut_none h, h]
  | frame f r hf ih => rw [rest_append hf, ih]

/-- What more bytes complete depends on the rest only. -/
theorem frames_append_bytes (bs cs : List α) :
    F.frames (bs ++ cs) = F.frames bs ++ F.frames (F.rest bs ++ cs) := by
  induction bs using split_induction (F := F) with
  | stuck bs h => simp [frames_of_cut_none h, rest_of_cut_none h]
  | frame f r hf ih => simp [hf, List.append_assoc, ih]

theorem rest_append_bytes (bs cs : List α) : F.rest (bs ++ cs) = F.rest (F.rest bs ++ cs) := by
  induction bs using split_induction (F := F) with
  | stuck bs h => simp [rest_of_cut_none h]
  | frame f r hf ih => simp [hf, List.append_assoc, ih]

theorem frames_flatten {fs : List (List α)} (h : ∀ f ∈ fs, F.IsFrame f) (r : List α) :
    F.frames (fs.flatten ++ r) = fs ++ F.frames r := by
  induction fs with
  | nil => simp
  | cons f fs ih =>
    have hf := h f (by simp)
    have hfs := ih fun g hg => h g (by simp [hg])
    simp [List.append_assoc, hf, hfs]

theorem rest_flatten {fs : List (List α)} (h : ∀ f ∈ fs, F.IsFrame f) (r : List α) :
    F.rest (fs.flatten ++ r) = F.rest r := by
  induction fs with
  | nil => simp
  | cons f fs ih =>
    have hf := h f (by simp)
    have hfs := ih fun g hg => h g (by simp [hg])
    simp [List.append_assoc, hf, hfs]

/-- No frame of the stream is of `N` or more elements, nor is the one its rest begins. -/
def Below (F : Framing α) (N : Nat) (bs : List α) : Prop :=
  (∀ f ∈ F.frames bs, f.length < N) ∧ ∀ n, F.need (F.rest bs) = some n → n < N

theorem below_of_cut_none {N : Nat} {bs : List α} (h : F.cut bs = none) :
    F.Below N bs ↔ ∀ n, F.need bs = some n → n < N := by
  simp [Below, frames_of_cut_none h, rest_of_cut_none h]

theorem below_append {N : Nat} {f : List α} (hf : F.IsFrame f) (r : List α) :
    F.Below N (f ++ r) ↔ f.length < N ∧ F.Below N r := by
  simp only [Below, frames_append hf, rest_append hf, List.mem_cons, forall_eq_or_imp, and_assoc]

theorem need_lt_of_below {N n : Nat} {bs : List α} (h : F.Below N bs) (hn : F.need bs = some n) :
    n < N := by
  cases hcut : F.cut bs with
  | none => exact (below_of_cut_none hcut).mp h n hn
  | some p =>
    obtain ⟨f, r⟩ := p
    obtain ⟨rfl, hf⟩ := cut_eq_some_iff.mp hcut
    have hlen := F.need_append r hf
    rw [hn, Option.some.injEq] at hlen
    rw [hlen]
    exact ((below_append hf r).mp h).1

theorem Below.of_append {N : Nat} {bs cs : List α} (h : F.Below N (bs ++ cs)) : F.Below N bs := by
  rw [Below, frames_append_bytes, rest_append_bytes] at h
  refine ⟨fun f hf => h.1 f (List.mem_append_left _ hf), ?_⟩
  intro n hn
  have hmore := F.need_append cs hn
  cases hcut : F.cut (F.rest bs ++ cs) with
  | none =>
    rw [rest_of_cut_none hcut] at h
    exact h.2 n hmore
  | some p =>
    obtain ⟨f, r⟩ := p
    obtain ⟨heq, hf⟩ := cut_eq_some_iff.mp hcut
    have hneed := F.need_append r hf
    rw [← heq, hmore, Option.some.injEq] at hneed
    rw [hneed]
    refine h.1 f (List.mem_append_right _ ?_)
    rw [frames_of_cut_some hcut]
    exact List.mem_cons_self

/-- Any cut into whole frames and a rest without one is the greedy split. -/
theorem split_unique {fs : List (List α)} {r : List α} (h : ∀ f ∈ fs, F.IsFrame f)
    (hr : F.cut r = none) : F.frames (fs.flatten ++ r) = fs ∧ F.rest (fs.flatten ++ r) = r := by
  rw [frames_flatten h, rest_flatten h, frames_of_cut_none hr, rest_of_cut_none hr]
  simp

/-- Two framings split a stream alike when the frames of one are frames of the other and its rest holds
no frame of the other either. -/
theorem frames_eq_iff {F G : Framing α} {bs : List α} :
    G.frames bs = F.frames bs ↔ (∀ f ∈ F.frames bs, G.IsFrame f) ∧ G.cut (F.rest bs) = none := by
  have hF := frames_flatten_append_rest (F := F) bs
  constructor
  · intro heq
    have hG := frames_flatten_append_rest (F := G) bs
    rw [heq] at hG
    have hrest : G.rest bs = F.rest bs := List.append_cancel_left (hG.trans hF.symm)
    rw [← heq, ← hrest]
    exact ⟨fun f => isFrame_of_mem_frames, cut_rest bs⟩
  · rintro ⟨hframes, hcut⟩
    have hsplit := (split_unique hframes hcut).1
    rwa [hF] at hsplit

theorem rest_eq_of_frames_eq {F G : Framing α} {bs : List α} (h : G.frames bs = F.frames bs) :
    G.rest bs = F.rest bs := by
  have hF := frames_flatten_append_rest (F := F) bs
  have hG := frames_flatten_append_rest (F := G) bs
  rw [h] at hG
  exact List.append_cancel_left (hG.trans hF.symm)

/-- Frame after frame, and nothing else. -/
def Whole (F : Framing α) (bs : List α) : Prop := ∃ fs : List (List α), (∀ f ∈ fs, F.IsFrame f) ∧ bs = fs.flatten

theorem whole_nil : F.Whole [] := ⟨[], by simp, rfl⟩

theorem cut_nil : F.cut ([] : List α) = none := by
  cases hcut : F.cut ([] : List α) with
  | none => rfl
  | some p =>
    obtain ⟨f, r⟩ := p
    exact absurd (cut_length_lt hcut) (Nat.not_lt_zero _)

theorem whole_iff {bs : List α} : F.Whole bs ↔ F.rest bs = [] := by
  constructor
  · rintro ⟨fs, hfs, rfl⟩
    have hrest := rest_flatten hfs []
    rwa [List.append_nil, rest_of_cut_none cut_nil] at hrest
  · intro hrest
    refine ⟨F.frames bs, fun f => isFrame_of_mem_frames, ?_⟩
    have hall := frames_flatten_append_rest (F := F) bs
    rw [hrest, List.append_nil] at hall
    exact hall.symm

theorem Whole.append_iff {bs : List α} (h : F.Whole bs) (cs : List α) : F.Whole (bs ++ cs) ↔ F.Whole cs := by
  rw [whole_iff, whole_iff, rest_append_bytes, whole_iff.mp h, List.nil_append]

theorem whole_take_iff {f : List α} (hf : F.IsFrame f) {k : Nat} (hk : k ≤ f.length) :
    F.Whole (f.take k) ↔ k = 0 ∨ k = f.length := by
  constructor
  · intro hwhole
    cases hcut : F.cut (f.take k) with
    | none =>
      have hnil := whole_iff.mp hwhole
      rw [rest_of_cut_none hcut] at hnil
      have hlen := congrArg List.length hnil
      rw [List.length_take_of_le hk] at hlen
      exact Or.inl hlen
    | some p =>
      obtain ⟨g, r⟩ := p
      obtain ⟨heq, hg⟩ := cut_eq_some_iff.mp hcut
      have hneed := F.need_append (r ++ f.drop k) hg
      rw [← List.append_assoc, ← heq, List.take_append_drop, hf, Option.some.injEq] at hneed
      have hlen := congrArg List.length heq
      rw [List.length_take_of_le hk, List.length_append] at hlen
      exact Or.inr (by omega)
  · rintro (rfl | rfl)
    · exact whole_nil
    · refine ⟨[f], ?_, ?_⟩
      · intro g hg
        rw [List.mem_singleton.mp hg]
        exact hf
      · rw [List.take_length]
        exact (List.append_nil f).symm

/-- A piece from the front of a stream of frames holds some of its frames whole, and the frame it
stops in is one of the stream's. -/
theorem frames_of_prefix (hnil : F.need [] = none) {N : Nat} {bs : List α} {fs : List (List α)}
    (h : ∀ f ∈ fs, F.IsFrame f) (hN : ∀ f ∈ fs, f.length < N) (hbs : bs <+: fs.flatten) :
    F.frames bs <+: fs ∧ F.Below N bs := by
  induction bs using split_induction (F := F) generalizing fs with
  | stuck bs hc =>
    rw [frames_of_cut_none hc, below_of_cut_none hc]
    refine ⟨List.nil_prefix, ?_⟩
    intro n hn
    obtain ⟨t, ht⟩ := hbs
    have hfull := F.need_append t hn
    rw [ht] at hfull
    cases fs with
    | nil =>
      rw [List.flatten_nil, hnil] at hfull
      cases hfull
    | cons g gs =>
      have hg := F.need_append gs.flatten (h g (by simp))
      rw [List.flatten_cons, hg] at hfull
      cases hfull
      exact hN g (by simp)
  | frame f r hf ih =>
    obtain ⟨t, ht⟩ := hbs
    rw [List.append_assoc] at ht
    cases fs with
    | nil =>
      have hpos := hf.pos
      have hlen := congrArg List.length ht
      simp only [List.length_append, List.flatten_nil, List.length_nil] at hlen
      omega
    | cons g gs =>
      have hcut := cut_append (F := F) hf (r ++ t)
      rw [ht, List.flatten_cons, cut_append (h g (by simp))] at hcut
      simp only [Option.some.injEq, Prod.mk.injEq] at hcut
      obtain ⟨rfl, hr⟩ := hcut
      have hgs := ih (fun f hf => h f (by simp [hf])) (fun f hf => hN f (by simp [hf])) ⟨t, hr.symm⟩
      rw [frames_append hf, below_append hf]
      exact ⟨(List.prefix_append_right_inj [g]).mpr hgs.1, hN g (by simp), hgs.2⟩

end Framing
