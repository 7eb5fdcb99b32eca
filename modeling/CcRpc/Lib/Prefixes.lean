import Mathlib

/-!
# Trees of prefixes

Numbers are read from their most significant digit in base `b`. The node of level `k` with prefix `q`
stands for the numbers `i` with `i / b ^ k = q`; those of level 0 are the numbers themselves. Which
nodes a tree has is a relation of levels and prefixes.
-/

namespace Prefixes

variable {b k n i j q d : Nat}

/-- The digit of `i` of weight `b ^ k`. -/
def digit (b k i : Nat) : Nat := i / b ^ k % b

theorem digit_lt (hb : 0 < b) : digit b k i < b := Nat.mod_lt _ hb

theorem div_pow_succ : i / b ^ (k + 1) = i / b ^ k / b := by
  rw [pow_succ, Nat.div_div_eq_div_mul]

theorem child_digit : b * (i / b ^ (k + 1)) + digit b k i = i / b ^ k := by
  rw [div_pow_succ, digit]
  exact Nat.div_add_mod _ _

theorem child_div (hd : d < b) : (b * q + d) / b = q := by
  rw [Nat.mul_add_div (by omega), Nat.div_eq_of_lt hd, Nat.add_zero]

theorem child_add_mod :
    (b * q + digit b k i) * b ^ k + i % b ^ k = q * b ^ (k + 1) + i % b ^ (k + 1) := by
  rw [Nat.mod_pow_succ, digit]
  ring

theorem digit_mod (hk : k < n) : digit b k (i % b ^ n) = digit b k i := by
  obtain ⟨m, rfl⟩ := Nat.exists_eq_add_of_lt hk
  have hpow : b ^ (k + m + 1) = b ^ k * (b * b ^ m) := by ring
  rw [digit, digit, hpow, Nat.mod_mul_right_div_self, Nat.mod_mul_right_mod]

/-- The nodes of a tree with `height` levels above the numbers: each has its parent, and only the
root has none. -/
structure PrefixTree (b height : Nat) (full : Nat → Nat → Prop) : Prop where
  above : ∀ k q, full k q → k < height ∧ full (k + 1) (q / b) ∨ 0 < height ∧ k = height ∧ q = 0
  root : 0 < height → full height 0

/-- No node without a child. -/
def Tight (b : Nat) (full : Nat → Nat → Prop) : Prop :=
  ∀ k q, full (k + 1) q → ∃ d < b, full k (b * q + d)

/-- No node without a child except on the path of `i`. -/
def TightOff (b i : Nat) (full : Nat → Nat → Prop) : Prop :=
  ∀ k q, full (k + 1) q → q ≠ i / b ^ (k + 1) → ∃ d < b, full k (b * q + d)

variable {height : Nat} {full : Nat → Nat → Prop}

theorem Tight.off (hT : Tight b full) (i : Nat) : TightOff b i full :=
  fun k q hq _ => hT k q hq

theorem PrefixTree.le_height (hT : PrefixTree b height full) (hq : full k q) : k ≤ height := by
  rcases hT.above k q hq with ⟨hlt, -⟩ | ⟨-, rfl, -⟩ <;> omega

theorem PrefixTree.path {m : Nat} (hT : PrefixTree b height full) (hi : full k (i / b ^ k))
    (hkm : k ≤ m) (hm : m ≤ height) : full m (i / b ^ m) := by
  induction m, hkm using Nat.le_induction with
  | base => exact hi
  | succ m hkm ih =>
    rcases hT.above _ _ (ih (by omega)) with ⟨-, hup⟩ | ⟨-, heq, -⟩
    · rwa [div_pow_succ]
    · omega

theorem PrefixTree.prefixes (hT : PrefixTree b height full) (hi : full 0 i) (hk : k ≤ height) :
    full k (i / b ^ k) :=
  hT.path (by rwa [pow_zero, Nat.div_one]) (Nat.zero_le k) hk

theorem PrefixTree.height_pos (hT : PrefixTree b height full) (hi : full 0 i) : 0 < height := by
  rcases hT.above 0 i hi with ⟨hlt, -⟩ | ⟨hpos, -, -⟩ <;> omega

theorem PrefixTree.lt_pow (hT : PrefixTree b height full) (hb : 0 < b) (hi : full 0 i) :
    i < b ^ height := by
  rcases hT.above _ _ (hT.prefixes hi (Nat.le_refl _)) with ⟨hlt, -⟩ | ⟨-, -, hzero⟩
  · omega
  · exact (Nat.div_eq_zero_iff_lt (Nat.pow_pos hb)).mp hzero

/-- Under a node of a tight tree there is a number. -/
theorem Tight.exists_number (hT : Tight b full) (hq : full k q) :
    ∃ i, full 0 i ∧ i / b ^ k = q := by
  induction k generalizing q with
  | zero => exact ⟨q, hq, by simp⟩
  | succ k ih =>
    obtain ⟨d, hd, hchild⟩ := hT k q hq
    obtain ⟨i, hi, hdiv⟩ := ih hchild
    exact ⟨i, hi, by rw [div_pow_succ, hdiv, child_div hd]⟩

/-- The numbers under a node. -/
def Under (b : Nat) (full : Nat → Nat → Prop) (k q : Nat) : Set Nat :=
  {i | full 0 i ∧ i / b ^ k = q}

theorem PrefixTree.digit_full (hT : PrefixTree b height full) (hj : full 0 j) (hk : k < height) :
    full k (b * (j / b ^ (k + 1)) + digit b k j) := by
  rw [child_digit]
  exact hT.prefixes hj (by omega)

theorem PrefixTree.least_of_first (hT : PrefixTree b height full) (hd : d < b)
    (hfirst : ∀ e < d, ¬ full k (b * q + e)) (hi : IsLeast (Under b full k (b * q + d)) i) (hk : k < height) :
    IsLeast (Under b full (k + 1) q) i := by
  obtain ⟨⟨hfull, hdiv⟩, hleast⟩ := hi
  refine ⟨⟨hfull, by rw [div_pow_succ, hdiv, child_div hd]⟩, ?_⟩
  rintro j ⟨hj, hjq⟩
  have hchild := hT.digit_full hj hk
  have hdiv' : b * q + digit b k j = j / b ^ k := hjq ▸ child_digit
  rw [hjq] at hchild
  rcases Nat.lt_trichotomy (digit b k j) d with hlt | heq | hgt
  · exact absurd hchild (hfirst _ hlt)
  · exact hleast ⟨hj, by rw [← hdiv', heq]⟩
  · apply Nat.le_of_lt
    apply Nat.lt_of_div_lt_div (c := b ^ k)
    omega

/-- No number from `i` on under a node of the path of `i`. -/
def NoneFrom (b : Nat) (full : Nat → Nat → Prop) (i k : Nat) : Prop :=
  ∀ j, full 0 j → i ≤ j → j / b ^ k ≠ i / b ^ k

/-- Where there is none in the child on the path, the next one is the least in the first child
behind it. -/
theorem PrefixTree.least_of_next (hT : PrefixTree b height full) (hnone : NoneFrom b full i k)
    (hd : d < b) (hgt : digit b k i < d)
    (hfirst : ∀ e, digit b k i < e → e < d → ¬ full k (b * (i / b ^ (k + 1)) + e))
    (hj : IsLeast (Under b full k (b * (i / b ^ (k + 1)) + d)) j) (hk : k < height) :
    IsLeast {j | full 0 j ∧ i ≤ j} j := by
  obtain ⟨⟨hfull, hdiv⟩, hleast⟩ := hj
  have hi : b * (i / b ^ (k + 1)) + digit b k i = i / b ^ k := child_digit
  have hlt : i < j := by
    apply Nat.lt_of_div_lt_div (c := b ^ k)
    omega
  refine ⟨⟨hfull, hlt.le⟩, ?_⟩
  rintro m ⟨hm, him⟩
  by_contra hmj
  rw [Nat.not_le] at hmj
  have hlow := Nat.div_le_div_right (c := b ^ k) him
  have hhigh := Nat.div_le_div_right (c := b ^ k) hmj.le
  have hne := hnone m hm him
  -- `m` has the same prefix, and a digit between the two
  have hup : m / b ^ (k + 1) = i / b ^ (k + 1) := by
    apply Nat.le_antisymm
    · rw [div_pow_succ, ← child_div (b := b) (q := i / b ^ (k + 1)) hd, ← hdiv]
      exact Nat.div_le_div_right hhigh
    · exact Nat.div_le_div_right him
  have hmd := hT.digit_full hm hk
  have hmq : b * (m / b ^ (k + 1)) + digit b k m = m / b ^ k := child_digit
  rw [hup] at hmd hmq
  rcases Nat.lt_trichotomy (digit b k m) d with hltd | heq | hgtd
  · exact hfirst _ (by omega) hltd hmd
  · have := hleast ⟨hm, by rw [← hmq, heq]⟩
    omega
  · omega

theorem PrefixTree.noneFrom_succ (hT : PrefixTree b height full) (hb : 0 < b)
    (hnone : NoneFrom b full i k)
    (hright : ∀ e, digit b k i < e → e < b → ¬ full k (b * (i / b ^ (k + 1)) + e))
    (hk : k < height) : NoneFrom b full i (k + 1) := by
  intro j hj hij heq
  have hchild := hT.digit_full hj hk
  have hjq : b * (j / b ^ (k + 1)) + digit b k j = j / b ^ k := child_digit
  have hiq : b * (i / b ^ (k + 1)) + digit b k i = i / b ^ k := child_digit
  have hle := Nat.div_le_div_right (c := b ^ k) hij
  have hne := hnone j hj hij
  rw [heq] at hchild hjq
  exact hright _ (by omega) (digit_lt hb) hchild

theorem PrefixTree.none_of_root (hT : PrefixTree b height full) (hb : 0 < b)
    (hi : i < b ^ height) (hnone : NoneFrom b full i height) :
    ∀ j, full 0 j → j < i := by
  intro j hj
  by_contra hij
  apply hnone j hj (Nat.not_lt.mp hij)
  rw [Nat.div_eq_of_lt hi, Nat.div_eq_of_lt (hT.lt_pow hb hj)]

end Prefixes
