import CcRpc.RadixUpdate

/-!
# Deletion from a radix tree

The item is taken out of its leaf, and then the nodes of its path are freed as long as they are empty.
-/

namespace CcRpc

open Prefixes

variable {A : Arena} {α : Type} [DecidableEq α] {t t' : Radix α} {S S' : RadixShape α}
  {k q a b i : Nat}

theorem Radix.Holds.deleteDescend (hH : t.Holds S) (hk : k < S.height) {shift : Nat}
    (hshift : 0 < k → shift = 4 * k) :
    deleteDescend t i (k + 1) (S.cell (k + 1) (i / 16 ^ (k + 1))) shift =
      some (S.cell 1 (i / 16)) := by
  have hle := hH.height_le
  induction k generalizing shift with
  | zero =>
    rw [zero_add, pow_one]
    rfl
  | succ k ih =>
    have hshift' : 0 < k → nextShift 8 shift = 4 * k := fun _ => by
      rw [hshift (by omega)]
      exact nextShift_eq (by decide) (by omega)
    have hnext := ih (by omega) hshift'
    rw [CcRpc.deleteDescend]
    by_cases hnull : S.cell (k + 2) (i / 16 ^ (k + 2)) = .null
    · rw [if_pos hnull]
      by_contra hleaf
      have hfull : S.full 1 (i / 16 ^ 1) := by
        rw [pow_one]
        exact fun heq => hleaf (by rw [heq])
      exact hH.tree.path hfull (show 1 ≤ k + 2 by omega) hk hnull
    · have hoffset : slotOffset i shift = digit 16 (k + 1) i := by
        rw [hshift (Nat.succ_pos k)]
        exact slotOffset_eq i (k + 1)
      have hslot := RadixShape.slot_record (S := S) (k := k + 1) (q := i / 16 ^ (k + 2))
        (digit_lt (k := k + 1) (i := i) (by decide : 0 < 16))
      rw [child_digit] at hslot
      simp only [if_neg hnull, hH.load hnull, hoffset, hslot, Option.bind_eq_bind,
        Option.bind_some, hnext]

theorem Radix.Holds.prune_step (hH : t.Holds S) (hC : t.Counted A) (hk : k + 1 < S.height)
    (hq : S.full (k + 1) q) (hempty : ∀ d < 16, S.cell k (16 * q + d) = .null) :
    ∃ t₁ t₂ t', radixTreeNodeFree t (S.cell (k + 1) q) = some t₁ ∧
      t₁.setSlot (S.cell (k + 2) (q / 16)) (q % 16) .null = some t₂ ∧
      t₂.modify (S.cell (k + 2) (q / 16)) RadixNode.decCount = some t' ∧
      t'.Holds (S.set (k + 1) q .null) ∧ t'.Counted A ∧ t'.heap = t.heap := by
  obtain ⟨a, ha, hamem⟩ := hH.node k q hq
  have hup : S.full (k + 2) (q / 16) := by
    rcases hH.tree.above _ _ hq with ⟨-, hup⟩ | ⟨-, hroot, -⟩
    · exact hup
    · omega
  obtain ⟨b, hb, hbmem⟩ := hH.node (k + 1) (q / 16) hup
  have hba : b ≠ a := by
    rintro rfl
    obtain ⟨hlevel, -⟩ := hH.inj _ _ _ _ _ ha hb
    omega
  have hbmem₁ : (t.drop a).mem b = some (S.record (k + 1) (q / 16)) :=
    (Radix.mem_drop_of_ne hba).trans hbmem
  have hdec := decCount_record (S := S) (k := k + 1) (q := q) hq
  rw [ha, hb]
  have hslot := Radix.setSlot_node (p := .null) hbmem₁ (Nat.mod_lt q (by decide : 16 > 0))
  refine ⟨t.drop a, _, (t.drop a).put b ((S.set (k + 1) q .null).record (k + 1) (q / 16)),
    radixTreeNodeFree_node hamem, hslot, ?_, ?_, (hC.drop hamem).put hbmem₁, ?_⟩
  · rw [Radix.modify_node Radix.mem_put_self, Radix.put_put, hdec]
  · apply hH.remove_node hb hk ha hempty rfl
    · rw [Radix.height_put, Radix.height_drop]
    · rw [Radix.rnode_put, Radix.rnode_drop]
  · rw [Radix.heap_put, Radix.heap_drop]

theorem Radix.Holds.root_ne (hH : t.Holds S) (hq : S.full (k + 1) q) :
    S.cell (k + 1) q ≠ t.rnode ↔ k + 1 < S.height := by
  rw [hH.rnode]
  rcases hH.tree.above _ _ hq with ⟨hlt, -⟩ | ⟨-, heq, rfl⟩
  · refine ⟨fun _ => hlt, fun _ hroot => ?_⟩
    obtain ⟨h, hh⟩ := Nat.exists_eq_succ_of_ne_zero (show S.height ≠ 0 by omega)
    obtain ⟨a, ha, -⟩ := hH.node k q hq
    rw [ha, hh] at hroot
    obtain ⟨hlevel, -⟩ := hH.inj _ _ _ _ _ ha hroot.symm
    omega
  · rw [heq]
    exact ⟨fun hne => absurd rfl hne, fun hlt => absurd hlt (Nat.lt_irrefl _)⟩

/-- What the second loop of `radix_tree_delete` leaves, at the node of level `k + 1` where it stops. -/
structure PruneEnd (S S' : RadixShape α) (i k : Nat) : Prop where
  pruned : S.Pruned S' i
  full : S'.full (k + 1) (i / 16 ^ (k + 1))
  stop : k + 1 < S.height → occupied (S'.slots k (i / 16 ^ (k + 1))) ≠ 0
  below : ∀ m < k, S'.cell (m + 1) (i / 16 ^ (m + 1)) = .null
  off : TightOff 16 i S.full → TightOff 16 i S'.full

theorem Radix.Holds.prune (hH : t.Holds S) (hC : t.Counted A)
    (hq : S.full (k + 1) (i / 16 ^ (k + 1)))
    (hbelow : ∀ m < k, S.cell (m + 1) (i / 16 ^ (m + 1)) = .null) {fuel : Nat}
    (hfuel : S.height ≤ k + fuel) :
    ∃ k' t' S', deletePrune fuel (S.cell (k + 1) (i / 16 ^ (k + 1))) t =
        some (S'.cell (k' + 1) (i / 16 ^ (k' + 1)), t') ∧
      t'.Holds S' ∧ t'.Counted A ∧ t'.heap = t.heap ∧ PruneEnd S S' i k' := by
  have hk := hH.tree.le_height hq
  induction fuel generalizing k t S with
  | zero => omega
  | succ fuel ih =>
    have hcount : (S.record k (i / 16 ^ (k + 1))).count =
        occupied (S.slots k (i / 16 ^ (k + 1))) := rfl
    simp only [deletePrune, hH.load hq, hH.root_ne hq, hcount, Option.bind_eq_bind,
      Option.bind_some]
    by_cases hempty : occupied (S.slots k (i / 16 ^ (k + 1))) = 0 ∧ k + 1 < S.height
    · obtain ⟨hzero, hlt⟩ := hempty
      have hnull : ∀ d < 16, S.cell k (16 * (i / 16 ^ (k + 1)) + d) = .null := by
        intro d hd
        rw [← RadixShape.slots_of_lt hd]
        exact occupied_eq_zero.mp hzero d hd
      obtain ⟨t₁, t₂, t₃, h₁, h₂, h₃, hH₃, hC₃, hheap⟩ := hH.prune_step hC hlt hq hnull
      have hparent : (S.record k (i / 16 ^ (k + 1))).parent =
          S.cell (k + 2) (i / 16 ^ (k + 1) / 16) := if_neg (by omega)
      have hup : (S.set (k + 1) (i / 16 ^ (k + 1)) .null).full (k + 2) (i / 16 ^ (k + 2)) := by
        rw [RadixShape.full, RadixShape.cell_set_of_ne (by omega)]
        exact hH.tree.path hq (by omega) hlt
      have hcell : (S.set (k + 1) (i / 16 ^ (k + 1)) .null).cell (k + 2) (i / 16 ^ (k + 2)) =
          S.cell (k + 2) (i / 16 ^ (k + 1) / 16) := by
        rw [RadixShape.cell_set_of_ne (by omega), div_pow_succ]
      obtain ⟨k', t', S', hprune, hH', hC', hheap', hend⟩ := ih hH₃ hC₃ hup
        (by
          intro m hm
          by_cases hmk : m = k
          · rw [hmk, RadixShape.cell_set_self]
          · rw [RadixShape.cell_set_of_ne (by omega)]
            exact hbelow m (by omega))
        (by rw [RadixShape.height_set]; omega) hlt
      refine ⟨k', t', S', ?_, hH', hC', hheap'.trans hheap, hend.pruned.set_trans rfl, hend.full,
        hend.stop, hend.below, fun hoff => hend.off (RadixShape.tightOff_set hoff rfl)⟩
      rw [if_pos ⟨hzero, hlt⟩, hparent, h₁, Option.bind_some]
      rw [hcell] at hprune
      change (t₁.setSlot _ (i / 16 ^ (k + 1) % 16) _).bind _ = _
      rw [h₂, Option.bind_some, h₃, Option.bind_some]
      exact hprune
    · refine ⟨k, t, S, ?_, hH, hC, rfl, .refl S i, hq, fun hlt hzero => hempty ⟨hzero, hlt⟩,
        hbelow, id⟩
      rw [if_neg hempty]
      rfl

theorem Radix.Holds.delete_leaf (hH : t.Holds S) (hi : radixTreeHeight i ≤ t.height) :
    CcRpc.deleteDescend t i t.height t.rnode (firstShift 8 t.height) = some (S.cell 1 (i / 16)) := by
  have hle := hH.height_le
  have hipos := radixTreeHeight_pos i
  rw [hH.height] at hi
  obtain ⟨h, hh⟩ := Nat.exists_eq_succ_of_ne_zero (show S.height ≠ 0 by omega)
  have hlt := (radixTreeHeight_le (by omega)).mp hi
  rw [hh] at hlt
  have hroot : t.rnode = S.cell (h + 1) (i / 16 ^ (h + 1)) := by
    rw [hH.rnode, hh, Nat.div_eq_of_lt hlt]
  rw [hH.height, hh, hroot]
  exact hH.deleteDescend (by omega) fun _ => firstShift_eq (by decide) (by omega)

theorem Radix.Holds.delete_absent (hH : t.Holds S) (hi : S.cell 0 i = .null) :
    radixTreeDelete t i = some (.null, t) := by
  by_cases hlow : t.height < radixTreeHeight i
  · rw [radixTreeDelete, if_pos hlow]
  · have hdown := hH.delete_leaf (Nat.not_lt.mp hlow)
    simp only [radixTreeDelete, if_neg hlow, hdown, Option.bind_eq_bind, Option.bind_some]
    by_cases hleaf : S.cell 1 (i / 16) = .null
    · rw [if_pos hleaf]
      rfl
    · have hslot := RadixShape.slot_record (S := S) (k := 0) (q := i / 16)
        (Nat.mod_lt i (by decide : 16 > 0))
      rw [Nat.div_add_mod, hi] at hslot
      have hload := hH.load hleaf
      rw [zero_add] at hload
      simp only [if_neg hleaf, hload, leafOffset_eq, hslot, Option.bind_some, if_true]
      rfl

theorem Radix.Holds.only_root (hH : t.Holds S) (hk : k + 1 = S.height)
    (hempty : ∀ d < 16, S.cell k d = .null) {m r : Nat} (hfull : S.full (m + 1) r) :
    m = k ∧ r = 0 := by
  rcases Nat.lt_or_ge m k with hlt | hge
  · -- the ancestor at the level below the root would be a child of the root
    exfalso
    have hup : ∀ n, m + 1 + n ≤ k → S.full (m + 1 + n) (r / 16 ^ n) := by
      intro n hn
      induction n with
      | zero => simpa using hfull
      | succ n ih =>
        rcases hH.tree.above _ _ (ih (by omega)) with ⟨-, hup⟩ | ⟨-, heq, -⟩
        · rwa [div_pow_succ]
        · omega
    have hchild := hup (k - (m + 1)) (by omega)
    rw [show m + 1 + (k - (m + 1)) = k by omega] at hchild
    rcases hH.tree.above _ _ hchild with ⟨-, hroot⟩ | ⟨-, heq, -⟩
    · rcases hH.tree.above _ _ hroot with ⟨hlt', -⟩ | ⟨-, -, hzero⟩
      · omega
      · have hsmall : r / 16 ^ (k - (m + 1)) < 16 := by omega
        exact hchild (hempty _ hsmall)
    · omega
  · rcases hH.tree.above _ _ hfull with ⟨hlt, -⟩ | ⟨-, heq, hzero⟩
    · omega
    · exact ⟨by omega, hzero⟩

/-- After the pruning every node that is left has a child, or the one where it stopped is empty. -/
theorem PruneEnd.tight (hE : PruneEnd S S' i k) (hT : PrefixTree 16 S'.height S'.full)
    (hoff : TightOff 16 i S.full) (hne : occupied (S'.slots k (i / 16 ^ (k + 1))) ≠ 0) :
    Tight 16 S'.full := by
  intro m r hr
  by_cases hpath : r = i / 16 ^ (m + 1)
  · rcases Nat.lt_trichotomy m k with hlt | rfl | hgt
    · rw [RadixShape.full, hpath] at hr
      exact absurd (hE.below m hlt) hr
    · by_contra hnone
      push Not at hnone
      apply hne
      rw [occupied_eq_zero]
      intro d hd
      rw [RadixShape.slots_of_lt hd, ← hpath]
      exact not_not.mp (hnone d hd)
    · refine ⟨digit 16 m i, digit_lt (by decide), ?_⟩
      rw [hpath, child_digit]
      exact hT.path hE.full hgt ((Nat.le_succ m).trans (hT.le_height hr))
  · exact hE.off hoff m r hr hpath

/-- A node without children is not on the path of an item, and stays. -/
theorem PruneEnd.hollow (hE : PruneEnd (S.set 0 i .null) S' i k) (hH : t.Holds S)
    (hi : S.full 0 i) (hS : ¬ Tight 16 S.full) :
    ∃ m r, S'.full (m + 1) r ∧ r ≠ i / 16 ^ (m + 1) ∧ ∀ d < 16, S'.cell m (16 * r + d) = .null := by
  unfold Tight at hS
  push Not at hS
  obtain ⟨m, r, hr, hnone⟩ := hS
  have hpath : r ≠ i / 16 ^ (m + 1) := by
    intro heq
    have hle := hH.tree.le_height hr
    have hchild := hH.tree.prefixes hi (k := m) (by omega)
    rw [← child_digit, ← heq] at hchild
    exact hnone _ (digit_lt (by decide)) hchild
  refine ⟨m, r, ?_, hpath, fun d hd => ?_⟩
  · rcases hE.pruned.cell (m + 1) r with heq | ⟨-, -, heq⟩
    · rw [RadixShape.full, heq, RadixShape.cell_set_of_ne (by omega)]
      exact hr
    · exact absurd heq hpath
  · have hold : S.cell m (16 * r + d) = .null := not_not.mp (hnone d hd)
    rcases hE.pruned.cell m (16 * r + d) with heq | ⟨-, hnull, -⟩
    · rw [heq, RadixShape.cell_set]
      split
      · rfl
      · exact hold
    · exact hnull

/-- `radix_tree_delete` of an item. -/
theorem Radix.Holds.delete (hH : t.Holds S) (hC : t.Counted A) (hi : S.full 0 i) :
    ∃ t' S', radixTreeDelete t i = some (S.cell 0 i, t') ∧ t'.Holds S' ∧ t'.Counted A ∧
      t'.heap = t.heap ∧ S'.cell 0 = Function.update (S.cell 0) i .null ∧
      (Tight 16 S.full → Tight 16 S'.full) ∧ (¬ Tight 16 S.full → ¬ Tight 16 S'.full) := by
  have hpos := hH.tree.height_pos hi
  have hfits := (radixTreeHeight_le hpos).mpr (hH.tree.lt_pow (by decide) hi)
  rw [← hH.height] at hfits
  have hlow : ¬ t.height < radixTreeHeight i := Nat.not_lt.mpr hfits
  have hdown := hH.delete_leaf hfits
  have hleaf : S.full 1 (i / 16) := by
    have hprefix := hH.tree.prefixes hi (k := 1) hpos
    rwa [pow_one] at hprefix
  obtain ⟨b, hb, hmem⟩ := hH.node 0 (i / 16) hleaf
  rw [zero_add] at hb
  have hload := hH.load hleaf
  rw [zero_add] at hload
  have hslot := RadixShape.slot_record (S := S) (k := 0) (q := i / 16)
    (Nat.mod_lt i (by decide : 16 > 0))
  rw [Nat.div_add_mod] at hslot
  obtain ⟨h, hh⟩ := Nat.exists_eq_succ_of_ne_zero hpos.ne'
  have hdec := decCount_record (S := S) (k := 0) (q := i) hi
  have hH₁ : (t.put b ((S.set 0 i .null).record 0 (i / 16))).Holds (S.set 0 i .null) :=
    hH.set_item hb hpos rfl rfl rfl
  have hleaf₁ : (S.set 0 i .null).full (0 + 1) (i / 16 ^ (0 + 1)) := by
    rw [zero_add, pow_one, RadixShape.full, RadixShape.cell_set_of_ne (by omega)]
    exact hleaf
  have hfuel : (S.set 0 i .null).height ≤ 0 + t.height := by
    rw [hH.height, zero_add]
    exact Nat.le_refl _
  obtain ⟨k, t₂, S₂, hprune, hH₂, hC₂, hheap, hE⟩ := hH₁.prune
    (hC.put hmem) hleaf₁ (fun m hm => absurd hm (Nat.not_lt_zero m)) hfuel
  rw [zero_add, pow_one, RadixShape.cell_set_of_ne (by omega), hb] at hprune
  have hheight₂ : S₂.height = h + 1 := hE.pruned.height.trans hh
  have hzero : i / 16 ^ (h + 1) = 0 := by
    have hlt := hH.tree.lt_pow (by decide) hi
    rw [hh] at hlt
    exact Nat.div_eq_of_lt hlt
  have hk := hH₂.tree.le_height hE.full
  have hroot := hH₂.tree.root (by omega)
  rw [hheight₂] at hroot
  have hload₂ : t₂.load t₂.rnode = some (S₂.record h 0) := by
    rw [hH₂.rnode, hheight₂]
    exact hH₂.load hroot
  have hrnode := hH₂.rnode_ne_null (by omega)
  have hitems : S₂.cell 0 = Function.update (S.cell 0) i .null := by
    rw [hE.pruned.items]
    simp only [RadixShape.set, Function.update_self]
  have hcall : radixTreeDelete t i = if occupied (S₂.slots h 0) = 0 then
      (radixTreeNodeFree t₂ (S₂.cell (k + 1) (i / 16 ^ (k + 1)))).bind fun t =>
        some (S.cell 0 i, { t with rnode := .null, height := 0 })
      else some (S.cell 0 i, t₂) := by
    have hcount : (S₂.record h 0).count = occupied (S₂.slots h 0) := rfl
    rw [hb] at hdown hload
    simp only [radixTreeDelete, if_neg hlow, hdown, hload, leafOffset_eq, hslot,
      Option.bind_eq_bind, Option.bind_some, reduceCtorEq, if_false, if_neg hi,
      Radix.setSlot_node hmem (Nat.mod_lt i (by decide : 16 > 0)),
      Radix.modify_node Radix.mem_put_self, Radix.put_put, hdec, Radix.height_put, hprune,
      if_neg hrnode, hload₂,
      hcount]
    rfl
  rw [hcall]
  by_cases hcount : occupied (S₂.slots h 0) = 0
  · rw [if_pos hcount]
    have hempty : ∀ d < 16, S₂.cell h d = .null := by
      intro d hd
      have hslot := occupied_eq_zero.mp hcount d hd
      rwa [RadixShape.slots_of_lt hd, Nat.mul_zero, Nat.zero_add] at hslot
    -- the loop has stopped at the root, the only node left
    have hkh : k = h := by
      by_contra hne
      have hchild := hH₂.tree.path (m := h) hE.full (by omega) (by omega)
      rw [← child_digit, hzero, Nat.mul_zero, Nat.zero_add] at hchild
      exact hchild (hempty _ (digit_lt (by decide)))
    have honly : ∀ {m r}, S₂.full (m + 1) r → m = h ∧ r = 0 :=
      hH₂.only_root hheight₂.symm hempty
    obtain ⟨a, ha, hamem⟩ := hH₂.node h 0 hroot
    rw [hkh, hzero, ha, radixTreeNodeFree_node hamem]
    refine ⟨{ t₂.drop a with rnode := .null, height := 0 }, RadixShape.none, rfl,
      Radix.holds_none ?_ rfl rfl, hC₂.drop hamem, hheap, ?_,
      fun _ m r hr => absurd rfl hr, fun hS => ?_⟩
    · intro x
      by_cases hxa : x = a
      · rw [hxa]
        exact Radix.mem_drop_self
      · refine (Radix.mem_drop_of_ne hxa).trans ?_
        by_contra hsome
        obtain ⟨n, hn⟩ := Option.ne_none_iff_exists'.mp hsome
        obtain ⟨m, r, hmr⟩ := hH₂.only x n hn
        obtain ⟨rfl, rfl⟩ := honly (RadixShape.full_of_node hmr)
        rw [ha, RadixPtr.node.injEq] at hmr
        exact hxa hmr.symm
    · rw [← hitems]
      funext j
      by_contra hj
      have hfull : S₂.full 0 j := fun heq => hj heq.symm
      have hlt := hH₂.tree.lt_pow (by decide) hfull
      rw [hheight₂, pow_succ] at hlt
      exact hH₂.tree.prefixes hfull (k := h) (by omega)
        (hempty _ (Nat.div_lt_of_lt_mul hlt))
    · obtain ⟨m, r, hfull, hpath, -⟩ := hE.hollow hH hi hS
      obtain ⟨rfl, rfl⟩ := honly hfull
      exact absurd hzero.symm hpath
  · rw [if_neg hcount]
    refine ⟨t₂, S₂, rfl, hH₂, hC₂, hheap, hitems, fun hT => ?_, fun hS => ?_⟩
    · apply hE.tight hH₂.tree (RadixShape.tightOff_set (hT.off i) (by simp))
      rcases Nat.lt_or_ge (k + 1) S.height with hlt | hge
      · exact hE.stop hlt
      · obtain rfl : k = h := by omega
        rwa [hzero]
    · obtain ⟨m, r, hfull, -, hnone⟩ := hE.hollow hH hi hS
      intro hT
      obtain ⟨d, hd, hchild⟩ := hT m r hfull
      exact hchild (hnone d hd)

end CcRpc
