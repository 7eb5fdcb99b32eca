import Mathlib

/-!
# Spilling into larger classes

Blocks come in classes up to `top`, `cap b` of them in class `b`. A request of class `k` gets a block of
the least class from `k` on that has a free one, so it may take one that a larger request wants. All the
same the order of the requests does not matter: if from every class on there are no more requests than
blocks, the next request is served.
-/

namespace Spill

variable {cap : Nat → Nat} {top : Nat}

/-- How many blocks of class `b` are in use, given the class asked for and the class got of each
request. -/
def used (ps : List (Nat × Nat)) (b : Nat) : Nat := ps.countP fun x => x.2 = b

/-- How many requests are of class `j` or a larger one. -/
def asked (ks : List Nat) (j : Nat) : Nat := ks.countP fun k => j ≤ k

/-- How many blocks are of class `j` or a larger one. -/
def blocksFrom (cap : Nat → Nat) (top j : Nat) : Nat := ∑ b ∈ Finset.Icc j top, cap b

/-- Requests served one after the other, each in the least class that had a block. -/
structure Greedy (cap : Nat → Nat) (top : Nat) (ps : List (Nat × Nat)) : Prop where
  up : ∀ x ∈ ps, x.1 ≤ x.2 ∧ x.2 ≤ top
  le : ∀ b, used ps b ≤ cap b
  full : ∀ x ∈ ps, ∀ b, x.1 ≤ b → b < x.2 → used ps b = cap b

variable {ps : List (Nat × Nat)} {ks ls : List Nat} {b j k : Nat}

theorem used_cons (x : Nat × Nat) (ps : List (Nat × Nat)) (b : Nat) :
    used (x :: ps) b = used ps b + if x.2 = b then 1 else 0 := by
  simp [used, List.countP_cons]

theorem asked_cons (k : Nat) (ks : List Nat) (j : Nat) :
    asked (k :: ks) j = asked ks j + if j ≤ k then 1 else 0 := by
  simp [asked, List.countP_cons]

theorem asked_subperm (h : ks.Subperm ls) (j : Nat) : asked ks j ≤ asked ls j := h.countP_le _

theorem blocksFrom_congr {cap' : Nat → Nat} (h : ∀ b ≤ top, cap' b = cap b) (j : Nat) :
    blocksFrom cap' top j = blocksFrom cap top j :=
  Finset.sum_congr rfl fun b hb => h b (Finset.mem_Icc.mp hb).2

theorem blocksFrom_add {cap' : Nat → Nat} {d : Nat} (hb : b ≤ top)
    (h : ∀ c, cap' c = cap c + if c = b then d else 0) (j : Nat) :
    blocksFrom cap' top j = blocksFrom cap top j + if j ≤ b then d else 0 := by
  have hmem : b ∈ Finset.Icc j top ↔ j ≤ b := by simp [hb]
  simp only [blocksFrom, h, Finset.sum_add_distrib, Finset.sum_ite_eq', hmem]

theorem sum_used (htop : ∀ x ∈ ps, x.2 ≤ top) (j : Nat) :
    ∑ b ∈ Finset.Icc j top, used ps b = ps.countP fun x => j ≤ x.2 := by
  induction ps with
  | nil => simp [used]
  | cons x ps ih =>
    have hx := htop x List.mem_cons_self
    have hmem : x.2 ∈ Finset.Icc j top ↔ j ≤ x.2 := by simp [hx]
    simp only [used_cons, Finset.sum_add_distrib, Finset.sum_ite_eq, hmem, List.countP_cons,
      decide_eq_true_eq]
    rw [ih fun y hy => htop y (List.mem_cons_of_mem x hy)]

theorem greedy_nil : Greedy cap top [] :=
  ⟨by simp, fun b => by simp [used], by simp⟩

theorem Greedy.place (h : Greedy cap top ps) (hk : k ≤ b) (hb : b ≤ top) (hfree : used ps b < cap b)
    (hbelow : ∀ c, k ≤ c → c < b → used ps c = cap c) : Greedy cap top ((k, b) :: ps) := by
  refine ⟨fun x hx => ?_, fun c => ?_, fun x hx c hle hlt => ?_⟩
  · rcases List.mem_cons.mp hx with rfl | hx
    · exact ⟨hk, hb⟩
    · exact h.up x hx
  · rw [used_cons]
    have hc := h.le c
    split
    · next heq =>
      have hbc : b = c := heq
      subst hbc
      omega
    · exact hc
  · have hne : (k, b).2 ≠ c := by
      rintro rfl
      rcases List.mem_cons.mp hx with rfl | hx
      · exact Nat.lt_irrefl _ hlt
      · have hfull := h.full x hx b hle hlt
        omega
    rw [used_cons, if_neg hne, Nat.add_zero]
    rcases List.mem_cons.mp hx with rfl | hx
    · exact hbelow c hle hlt
    · exact h.full x hx c hle hlt

/-- If from every class on there are no more requests than blocks, there is a block for the next. -/
theorem Greedy.exists_free (h : Greedy cap top ps)
    (hall : ∀ j, asked (k :: ps.map Prod.fst) j ≤ blocksFrom cap top j) :
    ∃ b, k ≤ b ∧ b ≤ top ∧ used ps b < cap b := by
  by_contra hnone
  push Not at hnone
  -- the least class from which on all blocks are in use
  have hex : ∃ j, ∀ b, j ≤ b → b ≤ top → used ps b = cap b :=
    ⟨k, fun b hkb hb => Nat.le_antisymm (h.le b) (hnone b hkb hb)⟩
  have hjk : Nat.find hex ≤ k := Nat.find_min' hex fun b hkb hb =>
    Nat.le_antisymm (h.le b) (hnone b hkb hb)
  have hfull := Nat.find_spec hex
  have hmin : ∀ i < Nat.find hex, ¬ ∀ b, i ≤ b → b ≤ top → used ps b = cap b :=
    fun i hi => Nat.find_min hex hi
  generalize Nat.find hex = j at hjk hfull hmin
  -- nothing from below that class has spilled into it
  have hhome : ∀ x ∈ ps, j ≤ x.2 → j ≤ x.1 := by
    intro x hx hjx
    by_contra hlt
    refine hmin x.1 (by omega) fun b hle hb => ?_
    rcases Nat.lt_or_ge b x.2 with hbx | hbx
    · exact h.full x hx b hle hbx
    · exact hfull b (by omega) hb
  have hcount : (ps.countP fun x => j ≤ x.2) ≤ ps.countP fun x => j ≤ x.1 := by
    apply List.countP_mono_left
    intro x hx hjx
    exact decide_eq_true (hhome x hx (of_decide_eq_true hjx))
  have hblocks : blocksFrom cap top j = ps.countP fun x => j ≤ x.2 := by
    rw [← sum_used fun x hx => (h.up x hx).2, blocksFrom]
    apply Finset.sum_congr rfl
    intro b hb
    obtain ⟨hjb, hbt⟩ := Finset.mem_Icc.mp hb
    exact (hfull b hjb hbt).symm
  have hasked : asked (ps.map Prod.fst) j = ps.countP fun x => j ≤ x.1 := by
    rw [asked, List.countP_map]
    rfl
  have hj := hall j
  rw [asked_cons, if_pos hjk] at hj
  omega

end Spill
