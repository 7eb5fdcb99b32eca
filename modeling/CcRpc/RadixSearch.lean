import CcRpc.RadixShape

/-!
# Searches of a radix tree

`radix_tree_lookup` reads the digits of the index below the height and no others, so it finds the
item of the index modulo a power of 16. `radix_tree_node_left` finds the least index under a node, or
reads past the slots of a node without any.
-/

namespace CcRpc

open Prefixes

variable {α : Type} [DecidableEq α] {t : Radix α} {S : RadixShape α} {k q i d : Nat}

theorem Radix.Holds.load (hH : t.Holds S) (hq : S.full (k + 1) q) :
    t.load (S.cell (k + 1) q) = some (S.record k q) := by
  obtain ⟨a, ha, hmem⟩ := hH.node k q hq
  rw [ha]
  exact hmem

theorem RadixShape.slot_record (hd : d < 16) :
    (S.record k q).slot d = some (S.cell k (16 * q + d)) := by
  rw [RadixNode.slot, sizeLevel_eq, if_pos hd, ← RadixShape.slots_of_lt hd]
  rfl

theorem Radix.Holds.height_pos (hH : t.Holds S) (hne : t.rnode ≠ .null) : 0 < S.height := by
  rw [hH.rnode] at hne
  rcases hH.tree.above S.height 0 hne with ⟨hlt, -⟩ | ⟨hpos, -⟩ <;> omega

theorem Radix.Holds.rnode_ne_null (hH : t.Holds S) (hpos : 0 < S.height) : t.rnode ≠ .null := by
  rw [hH.rnode]
  exact hH.tree.root hpos

theorem Radix.Holds.empty (hH : t.Holds S) (hnull : t.rnode = .null) : S.cell 0 i = .null := by
  by_contra hi
  exact hH.rnode_ne_null (hH.tree.height_pos hi) hnull

theorem Radix.Holds.cell_null (hH : t.Holds S) (hk : k ≤ S.height) (hnull : S.cell k q = .null)
    (hi : i / 16 ^ k = q) : S.cell 0 i = .null := by
  by_contra hfull
  have hprefix := hH.tree.prefixes hfull hk
  rw [hi] at hprefix
  exact hprefix hnull

theorem Radix.Holds.beyond (hH : t.Holds S) (hi : 16 ^ S.height ≤ i) : S.cell 0 i = .null := by
  by_contra hfull
  have hlt := hH.tree.lt_pow (by decide) hfull
  omega

theorem div_prefix_eq (q k i : Nat) : (q * 16 ^ k + i % 16 ^ k) / 16 ^ k = q := by
  have hpos : 0 < 16 ^ k := Nat.pow_pos (by decide)
  rw [Nat.add_comm, Nat.add_mul_div_right _ _ hpos, Nat.div_eq_of_lt (Nat.mod_lt _ hpos),
    Nat.zero_add]

theorem Radix.Holds.lookupLoop (hH : t.Holds S) {shift : Nat} (hq : S.full k q)
    (hshift : ∀ m, k = m + 1 → shift = 4 * m) :
    lookupLoop t i k (S.cell k q) shift = some (S.cell 0 (q * 16 ^ k + i % 16 ^ k)) := by
  induction k generalizing q shift with
  | zero =>
    rw [CcRpc.lookupLoop, pow_zero, Nat.mul_one, Nat.mod_one, Nat.add_zero]
  | succ k ih =>
    have hk := hH.tree.le_height hq
    have hle := hH.height_le
    have hoffset : slotOffset i shift = digit 16 k i := by
      rw [hshift k rfl]
      exact slotOffset_eq i k
    have hdigit : digit 16 k i < 16 := digit_lt (by decide)
    simp only [CcRpc.lookupLoop, hH.load hq, hoffset, RadixShape.slot_record hdigit,
      Option.bind_eq_bind, Option.bind_some]
    rw [← child_add_mod]
    by_cases hnull : S.cell k (16 * q + digit 16 k i) = .null
    · rw [if_pos hnull, hH.cell_null (by omega) hnull (div_prefix_eq _ _ _)]
      rfl
    · rw [if_neg hnull]
      apply ih hnull
      rintro m rfl
      rw [hshift (m + 1) rfl]
      exact nextShift_eq (by decide) (by omega)

/-- `radix_tree_lookup`: the digits above the height are not looked at. -/
theorem Radix.Holds.lookup (hH : t.Holds S) (i : Nat) :
    radixTreeLookup t i = some (S.cell 0 (i % 16 ^ S.height)) := by
  by_cases hnull : t.rnode = .null
  · rw [radixTreeLookup, if_pos hnull, hH.empty hnull]
  · have hpos := hH.height_pos hnull
    have hle := hH.height_le
    obtain ⟨h, hh⟩ := Nat.exists_eq_succ_of_ne_zero hpos.ne'
    rw [radixTreeLookup, if_neg hnull, hH.rnode, hH.height, hH.lookupLoop (hH.tree.root hpos),
      Nat.zero_mul, Nat.zero_add]
    intro m hm
    rw [hm]
    exact firstShift_eq (by decide) (by omega)

theorem Radix.Holds.lookup_fits (hH : t.Holds S) (hi : i < 16 ^ S.height) :
    radixTreeLookup t i = some (S.cell 0 i) := by
  rw [hH.lookup, Nat.mod_eq_of_lt hi]

theorem skipNull_spec (slots : Nat → RadixPtr α) (n o : Nat) :
    o ≤ RadixNode.skipNull slots n o ∧ RadixNode.skipNull slots n o ≤ o + n ∧
      (∀ e, o ≤ e → e < RadixNode.skipNull slots n o → slots e = .null) ∧
      (RadixNode.skipNull slots n o < o + n →
        slots (RadixNode.skipNull slots n o) ≠ .null) := by
  induction n generalizing o with
  | zero =>
    simp only [RadixNode.skipNull]
    refine ⟨Nat.le_refl _, Nat.le_refl _, fun e he hlt => ?_, fun hlt => ?_⟩ <;> omega
  | succ n ih =>
    by_cases hnull : slots o = .null
    · have hskip : RadixNode.skipNull slots (n + 1) o = RadixNode.skipNull slots n (o + 1) := by
        simp only [RadixNode.skipNull, hnull]
      obtain ⟨hle, hge, hbefore, hat⟩ := ih (o + 1)
      rw [hskip]
      refine ⟨by omega, by omega, fun e he hlt => ?_, fun hlt => hat (by omega)⟩
      rcases Nat.eq_or_lt_of_le he with rfl | hgt
      · exact hnull
      · exact hbefore e hgt hlt
    · have hskip : RadixNode.skipNull slots (n + 1) o = o := by
        cases hslot : slots o with
        | null => exact absurd hslot hnull
        | root => simp only [RadixNode.skipNull, hslot]
        | node a => simp only [RadixNode.skipNull, hslot]
        | item v => simp only [RadixNode.skipNull, hslot]
      rw [hskip]
      exact ⟨Nat.le_refl _, by omega, fun e he hlt => absurd hlt (by omega), fun _ => hnull⟩

theorem RadixShape.nextSlot_record (hd : d < 16) :
    ((S.record k q).nextSlot d = .null ∧ ∀ e, d < e → e < 16 → ¬ S.full k (16 * q + e)) ∨
      ∃ e, d < e ∧ e < 16 ∧ (S.record k q).nextSlot d = S.cell k (16 * q + e) ∧
        S.full k (16 * q + e) ∧ ∀ m, d < m → m < e → ¬ S.full k (16 * q + m) := by
  obtain ⟨hle, hge, hbefore, hat⟩ := skipNull_spec (S.record k q).slots (16 - (d + 1)) (d + 1)
  have hnull : ∀ m, d < m → m < RadixNode.skipNull (S.record k q).slots (16 - (d + 1)) (d + 1) →
      ¬ S.full k (16 * q + m) := by
    intro m hm hlt hfull
    apply hfull
    rw [← RadixShape.slots_of_lt (by omega)]
    exact hbefore m hm hlt
  rw [nextSlot_eq]
  by_cases hlt : RadixNode.skipNull (S.record k q).slots (16 - (d + 1)) (d + 1) < 16
  · right
    have hcell := RadixShape.slots_of_lt (S := S) (k := k) (q := q) hlt
    refine ⟨_, by omega, hlt, ?_, ?_, hnull⟩
    · rw [if_pos hlt]
      exact hcell
    · intro hzero
      exact hat (by omega) (hcell.trans hzero)
  · left
    rw [if_neg hlt]
    exact ⟨rfl, fun e he h16 => hnull e he (by omega)⟩

/-- From a node down: the least index under it, unless there is a node without children. -/
theorem Radix.Holds.nodeLeftLoop (hH : t.Holds S) (hq : S.full k q) :
    (nodeLeftLoop t k (S.cell k q) = none ∧ ¬ Tight 16 S.full) ∨
      ∃ i, IsLeast (Under 16 S.full k q) i ∧
        nodeLeftLoop t k (S.cell k q) = some (S.cell 0 i) := by
  induction k generalizing q with
  | zero =>
    right
    refine ⟨q, ⟨⟨hq, by simp⟩, ?_⟩, rfl⟩
    rintro j ⟨-, hj⟩
    simp only [pow_zero, Nat.div_one] at hj
    exact hj.ge
  | succ k ih =>
    obtain ⟨-, hge, hbefore, hat⟩ := skipNull_spec (S.record k q).slots 16 0
    simp only [CcRpc.nodeLeftLoop, if_neg hq, hH.load hq, sizeLevel_eq, Option.bind_eq_bind,
      Option.bind_some]
    have hnull : ∀ e < RadixNode.skipNull (S.record k q).slots 16 0,
        ¬ S.full k (16 * q + e) := by
      intro e he hfull
      apply hfull
      rw [← RadixShape.slots_of_lt (by omega)]
      exact hbefore e (Nat.zero_le _) he
    by_cases hlt : RadixNode.skipNull (S.record k q).slots 16 0 < 16
    · rw [RadixShape.slot_record hlt, Option.bind_some]
      have hfull : S.full k (16 * q + RadixNode.skipNull (S.record k q).slots 16 0) := by
        unfold RadixShape.full
        rw [← RadixShape.slots_of_lt hlt]
        exact hat (by omega)
      rcases ih hfull with hnone | ⟨i, hi, hleft⟩
      · exact Or.inl hnone
      · exact Or.inr ⟨i, hH.tree.least_of_first hlt hnull hi (hH.tree.le_height hq), hleft⟩
    · left
      refine ⟨?_, ?_⟩
      · rw [RadixNode.slot, sizeLevel_eq, if_neg hlt]
        rfl
      · intro hT
        obtain ⟨d, hd, hchild⟩ := hT k q hq
        exact hnull d (by omega) hchild

theorem Radix.Holds.nodeLeft_or (hH : t.Holds S) (hq : S.full (k + 1) q) :
    (radixTreeNodeLeft t (S.cell (k + 1) q) = none ∧ ¬ Tight 16 S.full) ∨
      ∃ i, IsLeast (Under 16 S.full (k + 1) q) i ∧
        radixTreeNodeLeft t (S.cell (k + 1) q) = some (S.cell 0 i) := by
  rw [radixTreeNodeLeft, if_neg hq, hH.load hq]
  exact hH.nodeLeftLoop hq

theorem Radix.Holds.nodeLeft (hH : t.Holds S) (hT : Tight 16 S.full) (hq : S.full (k + 1) q) :
    ∃ i, IsLeast (Under 16 S.full (k + 1) q) i ∧
      radixTreeNodeLeft t (S.cell (k + 1) q) = some (S.cell 0 i) :=
  (hH.nodeLeft_or hq).resolve_left fun h => h.2 hT

theorem Radix.Holds.under_root (hH : t.Holds S) :
    Under 16 S.full S.height 0 = {i | S.full 0 i} := by
  ext i
  constructor
  · exact And.left
  · intro hi
    exact ⟨hi, Nat.div_eq_of_lt (hH.tree.lt_pow (by decide) hi)⟩

theorem Radix.Holds.rootLeft (hH : t.Holds S) (hT : Tight 16 S.full) :
    (radixTreeRootLeft t = some .null ∧ ∀ i, ¬ S.full 0 i) ∨
      ∃ i, IsLeast {i | S.full 0 i} i ∧ radixTreeRootLeft t = some (S.cell 0 i) := by
  by_cases hnull : t.rnode = .null
  · left
    refine ⟨?_, fun i hi => hi (hH.empty hnull)⟩
    rw [radixTreeRootLeft, hnull]
    rfl
  · right
    have hpos := hH.height_pos hnull
    have hroot := hH.tree.root hpos
    obtain ⟨h, hh⟩ := Nat.exists_eq_succ_of_ne_zero hpos.ne'
    rw [radixTreeRootLeft, hH.rnode, ← hH.under_root]
    rw [hh] at hroot ⊢
    exact hH.nodeLeft hT hroot

end CcRpc
