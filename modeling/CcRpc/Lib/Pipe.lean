import CcRpc.Lib.Framing

/-!
# Frames through a pipe

A writer puts whole frames into a pipe and a reader cuts what has come out so far. The frames it has cut
are the first of those that were put in, in their order, and what it holds back is shorter than the
next.
-/

namespace Framing

variable {α : Type} {F : Framing α}

theorem isFrame_unique {f g r s : List α} (hf : F.IsFrame f) (hg : F.IsFrame g) (heq : f ++ r = g ++ s) :
    f = g ∧ r = s := by
  have hcut := cut_append hf r
  rw [heq, cut_append hg s] at hcut
  simp only [Option.some.injEq, Prod.mk.injEq] at hcut
  exact ⟨hcut.1.symm, hcut.2.symm⟩

/-- What came out of the pipe and what is still inside, against the frames that were put in. -/
theorem frames_pipe {fs : List (List α)} {out inside : List α} (hfs : ∀ f ∈ fs, F.IsFrame f)
    (hpipe : out ++ inside = fs.flatten) :
    ∃ later, fs = F.frames out ++ later ∧ F.rest out ++ inside = later.flatten ∧
      ∀ f ∈ later.head?, (F.rest out).length < f.length := by
  induction out using split_induction (F := F) generalizing fs with
  | stuck out hc =>
    rw [frames_of_cut_none hc, rest_of_cut_none hc]
    refine ⟨fs, rfl, hpipe, ?_⟩
    intro f hf
    by_contra hle
    cases fs with
    | nil => cases hf
    | cons g gs =>
      cases hf
      -- then all of the first frame is out
      rw [List.flatten_cons] at hpipe
      have hprefix : f <+: out := by
        apply List.prefix_of_prefix_length_le (List.prefix_append f gs.flatten) _ (Nat.le_of_not_lt hle)
        rw [← hpipe]
        exact List.prefix_append out inside
      obtain ⟨r, hr⟩ := hprefix
      have hcut := cut_append (hfs f (by simp)) r
      rw [hr, hc] at hcut
      cases hcut
  | frame f r hf ih =>
    cases fs with
    | nil =>
      have hpos := hf.pos
      have hlen := congrArg List.length hpipe
      simp only [List.length_append, List.flatten_nil, List.length_nil] at hlen
      omega
    | cons g gs =>
      rw [List.flatten_cons, List.append_assoc] at hpipe
      obtain ⟨rfl, hrest⟩ := isFrame_unique hf (hfs g (by simp)) hpipe
      obtain ⟨later, hgs, hflat, hshort⟩ := ih (fun g' hg' => hfs g' (by simp [hg'])) hrest
      rw [frames_append hf, rest_append hf]
      exact ⟨later, by rw [hgs]; rfl, hflat, hshort⟩

end Framing
