import CcRpc.RadixMap

/-!
# The upper bound search of a radix tree

The search goes down along the path of the index, then right, and otherwise up again by the parent
links. The parent of a root that `radix_tree_insert` has made is the `struct radix_tree_root`, and the
climb takes this for a node; the parent of a root that was put on top later is NULL.
-/

namespace CcRpc

open Prefixes

variable {A : Arena} {α : Type} [DecidableEq α] {t : Radix α} {S : RadixShape α}
  {m : Nat → Option α} {i j k q : Nat}

/-- The item of the least index from `j` on; without one NULL when the root has no parent. -/
def BoundAnswer (S : RadixShape α) (j : Nat) (r : Option (RadixPtr α)) : Prop :=
  (∃ x, IsLeast {x | S.full 0 x ∧ j ≤ x} x ∧ r = some (S.cell 0 x)) ∨
    (∀ x, S.full 0 x → x < j) ∧ r = if S.rootParent = .null then some .null else none

/-- The climb from a node of the path that has nothing from `j` on. -/
theorem Radix.Holds.boundClimb (hH : t.Holds S) (hT : Tight 16 S.full) (hj : j < 16 ^ S.height)
    (hq : S.full (k + 1) (j / 16 ^ (k + 1))) (hnone : NoneFrom 16 S.full j (k + 1)) {fuel : Nat}
    (hfuel : S.height ≤ k + fuel) :
    BoundAnswer S j (boundClimb t fuel (S.cell (k + 1) (j / 16 ^ (k + 1)))) := by
  have hk := hH.tree.le_height hq
  induction fuel generalizing k with
  | zero => omega
  | succ fuel ih =>
    simp only [CcRpc.boundClimb, hH.load hq, Option.bind_eq_bind, Option.bind_some]
    rcases Nat.lt_or_ge (k + 1) S.height with hlt | hge
    · have hup : S.full (k + 2) (j / 16 ^ (k + 2)) := hH.tree.path hq (by omega) hlt
      have hparent : (S.record k (j / 16 ^ (k + 1))).parent =
          S.cell (k + 2) (j / 16 ^ (k + 2)) := by
        rw [div_pow_succ (k := k + 1)]
        exact if_neg (by omega)
      have hoffset : (S.record k (j / 16 ^ (k + 1))).offset = digit 16 (k + 1) j := rfl
      have hdigit : digit 16 (k + 1) j < 16 := digit_lt (by decide)
      rw [hparent, if_neg hup, hH.load hup, Option.bind_some, hoffset]
      rcases RadixShape.nextSlot_record (S := S) (k := k + 1) (q := j / 16 ^ (k + 2)) hdigit with
        ⟨hnull, hright⟩ | ⟨e, hgt, he, hnext, hfull, hfirst⟩
      · rw [hnull, if_neg (not_not_intro rfl)]
        exact ih hup (hH.tree.noneFrom_succ (by decide) hnone hright hlt) (by omega) hlt
      · rw [hnext, if_pos (show S.cell _ _ ≠ .null from hfull)]
        obtain ⟨x, hx, hleft⟩ := hH.nodeLeft hT hfull
        exact Or.inl ⟨x, hH.tree.least_of_next hnone he hgt hfirst hx hlt, hleft⟩
    · have hroot : (S.record k (j / 16 ^ (k + 1))).parent = S.rootParent := if_pos (by omega)
      have hheight : k + 1 = S.height := by omega
      rw [hheight] at hnone
      refine Or.inr ⟨hH.tree.none_of_root (by decide) hj hnone, ?_⟩
      rw [hroot]
      rcases hH.rootParent with hp | hp
      · rw [hp]
        rfl
      · rw [hp]
        rfl

/-- The way down, for an index with the digits of `j`. -/
theorem Radix.Holds.boundDescend (hH : t.Holds S) (hT : Tight 16 S.full)
    (hj : j = i % 16 ^ S.height) (hq : S.full (k + 1) (j / 16 ^ (k + 1))) {shift : Nat}
    (hshift : 0 < k → shift = 4 * k) {fuel : Nat} (hfuel : k < fuel) :
    BoundAnswer S j (boundDescend t i fuel (S.cell (k + 1) (j / 16 ^ (k + 1))) shift) := by
  have hk := hH.tree.le_height hq
  have hle := hH.height_le
  have hlt : j < 16 ^ S.height := by
    rw [hj]
    exact Nat.mod_lt _ (Nat.pow_pos (by decide))
  have hdigits : ∀ n < S.height, digit 16 n i = digit 16 n j := by
    intro n hn
    rw [hj, digit_mod hn]
  have hclimb : ∀ {k}, S.full (k + 1) (j / 16 ^ (k + 1)) → NoneFrom 16 S.full j (k + 1) →
      BoundAnswer S j (CcRpc.boundClimb t t.height (S.cell (k + 1) (j / 16 ^ (k + 1)))) := by
    intro k hq hnone
    apply hH.boundClimb hT hlt hq hnone
    rw [hH.height]
    exact Nat.le_add_left _ _
  induction k generalizing shift fuel with
  | zero =>
    obtain ⟨fuel, rfl⟩ := Nat.exists_eq_succ_of_ne_zero hfuel.ne'
    have hdigit : digit 16 0 j < 16 := digit_lt (by decide)
    have hoffset : i % 16 = digit 16 0 j := by
      rw [← hdigits 0 (by omega), digit, pow_zero, Nat.div_one]
    have hslot := RadixShape.slot_record (S := S) (k := 0) (q := j / 16 ^ (0 + 1)) hdigit
    rw [child_digit, pow_zero, Nat.div_one] at hslot
    have hheight : (S.record 0 (j / 16 ^ (0 + 1))).height = 1 := rfl
    simp only [CcRpc.boundDescend, hH.load hq, hheight, Nat.lt_irrefl, if_false, if_true,
      leafOffset_eq, hoffset, hslot, Option.bind_eq_bind, Option.bind_some]
    by_cases hfull : S.cell 0 j = .null
    · rw [if_neg (not_not_intro hfull)]
      have hnone : NoneFrom 16 S.full j 0 := by
        intro x hx hjx heq
        rw [pow_zero, Nat.div_one, Nat.div_one] at heq
        exact hx (heq ▸ hfull)
      rcases RadixShape.nextSlot_record (S := S) (k := 0) (q := j / 16 ^ (0 + 1)) hdigit with
        ⟨hnull, hright⟩ | ⟨e, hgt, he, hnext, hfull', hfirst⟩
      · rw [hnull, if_neg (not_not_intro rfl)]
        exact hclimb hq (hH.tree.noneFrom_succ (by decide) hnone hright (by omega))
      · rw [hnext, if_pos (show S.cell _ _ ≠ .null from hfull')]
        refine Or.inl ⟨_, hH.tree.least_of_next hnone he hgt hfirst ⟨⟨hfull', by simp⟩, ?_⟩
          (by omega), rfl⟩
        rintro x ⟨-, hx⟩
        rw [pow_zero, Nat.div_one] at hx
        exact hx.ge
    · rw [if_pos hfull]
      exact Or.inl ⟨j, ⟨⟨hfull, Nat.le_refl j⟩, fun x hx => hx.2⟩, rfl⟩
  | succ k ih =>
    obtain ⟨fuel, rfl⟩ := Nat.exists_eq_succ_of_ne_zero (show fuel ≠ 0 by omega)
    have hdigit : digit 16 (k + 1) j < 16 := digit_lt (by decide)
    have hoffset : slotOffset i shift = digit 16 (k + 1) j := by
      rw [hshift (Nat.succ_pos k), slotOffset_eq, hdigits (k + 1) (by omega)]
    have hslot := RadixShape.slot_record (S := S) (k := k + 1) (q := j / 16 ^ (k + 2)) hdigit
    rw [child_digit] at hslot
    have hheight : (S.record (k + 1) (j / 16 ^ (k + 2))).height = k + 2 := rfl
    simp only [CcRpc.boundDescend, hH.load hq, hheight, show 1 < k + 2 by omega, if_true, hoffset,
      hslot, Option.bind_eq_bind, Option.bind_some]
    by_cases hfull : S.cell (k + 1) (j / 16 ^ (k + 1)) = .null
    · rw [if_neg (not_not_intro hfull)]
      have hnone : NoneFrom 16 S.full j (k + 1) := by
        intro x hx hjx heq
        have hprefix := hH.tree.prefixes hx (k := k + 1) (by omega)
        rw [heq] at hprefix
        exact hprefix hfull
      rcases RadixShape.nextSlot_record (S := S) (k := k + 1) (q := j / 16 ^ (k + 2)) hdigit with
        ⟨hnull, hright⟩ | ⟨e, hgt, he, hnext, hfull', hfirst⟩
      · rw [hnull, if_neg (not_not_intro rfl)]
        exact hclimb hq (hH.tree.noneFrom_succ (by decide) hnone hright (by omega))
      · rw [hnext, if_pos (show S.cell _ _ ≠ .null from hfull')]
        obtain ⟨x, hx, hleft⟩ := hH.nodeLeft hT hfull'
        exact Or.inl ⟨x, hH.tree.least_of_next hnone he hgt hfirst hx (by omega), hleft⟩
    · rw [if_pos hfull]
      apply ih hfull _ (by omega) (by omega)
      intro hpos
      rw [hshift (by omega)]
      exact nextShift_eq (by decide) (by omega)

theorem Radix.Holds.upperBound (hH : t.Holds S) (hT : Tight 16 S.full) (hne : t.rnode ≠ .null)
    (i : Nat) : BoundAnswer S (i % 16 ^ S.height) (radixTreeLookupUpperBound t i) := by
  have hpos := hH.height_pos hne
  have hle := hH.height_le
  obtain ⟨h, hh⟩ := Nat.exists_eq_succ_of_ne_zero hpos.ne'
  have hzero : i % 16 ^ S.height / 16 ^ (h + 1) = 0 := by
    apply Nat.div_eq_of_lt
    rw [← Nat.succ_eq_add_one, ← hh]
    exact Nat.mod_lt _ (Nat.pow_pos (by decide))
  have hroot : t.rnode = S.cell (h + 1) (i % 16 ^ S.height / 16 ^ (h + 1)) := by
    rw [hH.rnode, hzero, hh]
  rw [radixTreeLookupUpperBound, if_neg hne, hroot]
  apply hH.boundDescend hT rfl
  · rw [hzero, ← Nat.succ_eq_add_one, ← hh]
    exact hH.tree.root hpos
  · intro _
    rw [hH.height, hh]
    exact firstShift_eq (by decide) (by omega)
  · rw [hH.height]
    omega

/-- The search returns the item of the least index from `i` on, and NULL without one; `m` are the
items stored. -/
def BoundCorrect (t : Radix α) (m : Nat → Option α) (i : Nat) : Prop :=
  (radixTreeLookupUpperBound t i = some .null ∧ ∀ j, m j ≠ none → j < i) ∨
    ∃ j, IsLeast {j | m j ≠ none ∧ i ≤ j} j ∧
      radixTreeLookupUpperBound t i = some (.ofItem (m j))

/-- The tree is empty, or the index fits the height and there is an item from it on, or there is none
from what the height leaves of the index on and the root has no parent. -/
def BoundSafe (t : Radix α) (m : Nat → Option α) (i : Nat) : Prop :=
  t.rnode = .null ∨ (radixTreeHeight i ≤ t.height ∧ ∃ j, m j ≠ none ∧ i ≤ j) ∨
    ((∀ j, m j ≠ none → j < i % 16 ^ t.height) ∧
      ∃ n, t.load t.rnode = some n ∧ n.parent = .null)

theorem RadixInv.load_root (hI : RadixInv A t m S) (hne : t.rnode ≠ .null) :
    ∃ n, t.load t.rnode = some n ∧ n.parent = S.rootParent := by
  have hpos := hI.holds.height_pos hne
  obtain ⟨h, hh⟩ := Nat.exists_eq_succ_of_ne_zero hpos.ne'
  have hroot := hI.holds.tree.root hpos
  rw [hh] at hroot
  refine ⟨S.record h 0, ?_, if_pos hh.symm⟩
  rw [hI.holds.rnode, hh]
  exact hI.holds.load hroot

theorem RadixInv.bound_iff (hI : RadixInv A t m S) (i : Nat) :
    BoundCorrect t m i ↔ BoundSafe t m i := by
  by_cases hnull : t.rnode = .null
  · refine ⟨fun _ => Or.inl hnull, fun _ => Or.inl ⟨?_, fun j hj => ?_⟩⟩
    · rw [radixTreeLookupUpperBound, if_pos hnull]
    · exact absurd (hI.holds.empty hnull) (hI.full_iff.mpr hj)
  · have hmod : i % 16 ^ t.height ≤ i := Nat.mod_le _ _
    have hanswer := hI.holds.upperBound hI.tight hnull i
    rw [← hI.holds.height] at hanswer
    rcases hanswer with ⟨x, hx, hcall⟩ | ⟨hnone, hcall⟩
    · simp only [hI.full_iff] at hx
      rw [hI.items] at hcall
      have hitem : RadixPtr.ofItem (m x) ≠ .null := mt RadixPtr.ofItem_eq_null.mp hx.1.1
      constructor
      · rintro (⟨hcall', -⟩ | ⟨j, hj, -⟩)
        · rw [hcall, Option.some_inj] at hcall'
          exact absurd hcall' hitem
        · have hfits := (radixTreeHeight_mono hj.1.2).trans (hI.fits hj.1.1)
          exact Or.inr (Or.inl ⟨hfits, j, hj.1⟩)
      · rintro (hzero | ⟨hfits, -⟩ | ⟨hnone, -⟩)
        · exact absurd hzero hnull
        · rw [mod_of_height_le hfits] at hx
          exact Or.inr ⟨x, hx, hcall⟩
        · exact absurd (hnone x hx.1.1) (Nat.not_lt.mpr hx.1.2)
    · have hnone' : ∀ j, m j ≠ none → j < i % 16 ^ t.height := fun j hj =>
        hnone j (hI.full_iff.mpr hj)
      obtain ⟨n, hload, hparent⟩ := hI.load_root hnull
      by_cases hp : S.rootParent = .null
      · rw [if_pos hp] at hcall
        exact ⟨fun _ => Or.inr (Or.inr ⟨hnone', n, hload, hparent.trans hp⟩),
          fun _ => Or.inl ⟨hcall, fun j hj => (hnone' j hj).trans_le hmod⟩⟩
      · rw [if_neg hp] at hcall
        constructor
        · rintro (⟨hcall', -⟩ | ⟨j, -, hcall'⟩)
          · rw [hcall] at hcall'
            cases hcall'
          · rw [hcall] at hcall'
            cases hcall'
        · rintro (hzero | ⟨-, j, hj, hij⟩ | ⟨-, n', hload', hparent'⟩)
          · exact absurd hzero hnull
          · exact absurd (hnone' j hj) (Nat.not_lt.mpr (hmod.trans hij))
          · rw [hload, Option.some_inj] at hload'
            rw [← hload', hparent] at hparent'
            exact absurd hparent' hp

/-- After every run in which the heap grants what it is asked for `radix_tree_lookup_upper_bound` is
right exactly then. -/
theorem radixTreeUpperBound_iff {ops : List (RadixOp α)}
    (hops : Runs.Along radixStep (RadixGranted A) radixTreeInit ops) :
    ∃ t, Runs.run radixStep radixTreeInit ops = some t ∧ ∀ i < 2 ^ A.word.bits,
      (BoundCorrect t (radixStored ops) i ↔ BoundSafe t (radixStored ops) i) := by
  obtain ⟨t, S, hrun, hI⟩ := radix_run hops
  exact ⟨t, hrun, fun i _ => hI.bound_iff i⟩

/-- In a tree whose height has grown. -/
theorem radixTreeUpperBound_two : ∃ t, Runs.run radixStep radixTreeInit radixTwo = some t ∧
    ∀ i < 2 ^ 64, (BoundCorrect t (radixStored radixTwo) i ↔
      BoundSafe t (radixStored radixTwo) i) :=
  radixTreeUpperBound_iff radixTwo_granted

/-- One item, in the root that its insertion has made. -/
def radixOne : List (RadixOp Nat) := [.insert 0 7 [0x100010]]

theorem radixOne_granted :
    Runs.Along radixStep (RadixGranted Arena.low) radixTreeInit radixOne := by
  refine ⟨radixGranted_insert (by decide) ⟨by decide, fun a ha => ?_⟩ rfl, fun _ _ => trivial⟩
  rw [List.mem_singleton] at ha
  rw [ha]
  exact ⟨⟨by decide, by decide⟩, rfl⟩

/-- Behind the only item the climb reads the `struct radix_tree_root` as a node. -/
theorem radixTreeUpperBound_root :
    ¬ ∀ ops : List (RadixOp Nat),
      Runs.Along radixStep (RadixGranted Arena.low) radixTreeInit ops →
        ∃ t, Runs.run radixStep radixTreeInit ops = some t ∧
          ∀ i < 2 ^ 64, BoundCorrect t (radixStored ops) i := by
  intro hclaim
  obtain ⟨t, hrun, hbound⟩ := hclaim radixOne radixOne_granted
  obtain rfl := Option.some.inj hrun
  rcases hbound 1 (by decide) with ⟨hcall, -⟩ | ⟨j, -, hcall⟩
  · exact absurd hcall (by decide)
  · cases hcall

end CcRpc
