import CcRpc.RadixHeap
import CcRpc.RadixSearch

/-!
# Updates of a radix tree

Every store of `radix_tree_insert` and `radix_tree_delete` belongs to one change of a single cell: an
item or a node appears in a slot of its parent, or disappears. What the memory holds afterwards is
the tree with this cell changed.
-/

namespace CcRpc

open Prefixes

variable {α : Type} [DecidableEq α] {t t' : Radix α} {S : RadixShape α} {k q a b d : Nat}
  {p : RadixPtr α}

theorem incCount_record (hnull : S.cell k q = .null) (hp : p ≠ .null) :
    RadixNode.incCount { S.record k (q / 16) with
      slots := Function.update (S.record k (q / 16)).slots (q % 16) p } =
    (S.set k q p).record k (q / 16) := by
  have hocc := occupied_update_of_null (Nat.mod_lt q (by decide))
    (RadixShape.slots_mod.trans hnull) hp
  have hle : occupied (Function.update (S.slots k (q / 16)) (q % 16) p) ≤ 16 := occupied_le
  have hcount : uint32 (occupied (S.slots k (q / 16)) + 1) =
      occupied (Function.update (S.slots k (q / 16)) (q % 16) p) := by
    rw [← hocc]
    exact Nat.mod_eq_of_lt (by omega)
  rw [RadixShape.record_set_parent, ← hcount]
  rfl

theorem decCount_record (hfull : S.cell k q ≠ .null) :
    RadixNode.decCount { S.record k (q / 16) with
      slots := Function.update (S.record k (q / 16)).slots (q % 16) .null } =
    (S.set k q .null).record k (q / 16) := by
  have hocc := occupied_update_null (Nat.mod_lt q (by decide))
    (RadixShape.slots_mod.trans_ne hfull)
  have hcount : decUint32 (occupied (S.slots k (q / 16))) =
      occupied (Function.update (S.slots k (q / 16)) (q % 16) .null) := by
    rw [decUint32, if_neg (by omega)]
    omega
  rw [RadixShape.record_set_parent, ← hcount]
  rfl

theorem Radix.Holds.congr (hH : t.Holds S) (hmem : t'.mem = t.mem) (hheight : t'.height = t.height)
    (hrnode : t'.rnode = t.rnode) : t'.Holds S where
  tree := hH.tree
  height_le := hH.height_le
  rootParent := hH.rootParent
  height := hheight.trans hH.height
  rnode := hrnode.trans hH.rnode
  node := by
    rw [hmem]
    exact hH.node
  only := by
    rw [hmem]
    exact hH.only
  inj := hH.inj

theorem Radix.Holds.cell_ne_fresh (hH : t.Holds S) (ha : t.mem a = none) (k q : Nat) :
    S.cell (k + 1) q ≠ .node a := by
  intro hc
  obtain ⟨c, hc', hmem⟩ := hH.node k q (RadixShape.full_of_node hc)
  rw [hc, RadixPtr.node.injEq] at hc'
  rw [← hc', ha] at hmem
  cases hmem

theorem Radix.Holds.child_null (hH : t.Holds S) (hk : k < S.height) (hq : S.cell (k + 1) q = .null)
    (hd : d < 16) : S.cell k (16 * q + d) = .null := by
  by_contra hfull
  rcases hH.tree.above _ _ hfull with ⟨-, habove⟩ | ⟨-, hroot, -⟩
  · rw [child_div hd] at habove
    exact habove hq
  · omega

/-- A memory that differs only where a cell is set holds the tree with this cell set. -/
theorem Radix.Holds.of_set (hH : t.Holds S) (hb : S.cell (k + 1) (q / 16) = .node b)
    (htree : PrefixTree 16 S.height (S.set k q p).full) (hk : k < S.height)
    (hheight : t'.height = t.height) (hrnode : t'.rnode = t.rnode)
    (hparent : t'.mem b = some ((S.set k q p).record k (q / 16)))
    (hother : ∀ m r a, S.cell (m + 1) r = .node a → ¬ (m + 1 = k ∧ r = q) → a ≠ b →
      t'.mem a = t.mem a)
    (hunder : ∀ m r, m + 2 = k → r / 16 = q → ¬ S.full (m + 1) r)
    (hself : ∀ m, m + 1 = k → p ≠ .null →
      ∃ a, p = .node a ∧ t'.mem a = some ((S.set k q p).record m q))
    (honly : ∀ a n, t'.mem a = some n → ∃ m r, (S.set k q p).cell (m + 1) r = .node a)
    (hfresh : ∀ m a, m + 1 = k → p = .node a → ∀ m' r', S.cell (m' + 1) r' ≠ .node a) :
    t'.Holds (S.set k q p) := by
  constructor
  · exact htree
  · exact hH.height_le
  · exact hH.rootParent
  · exact hheight.trans hH.height
  · rw [RadixShape.height_set, RadixShape.cell_set_of_ne (by omega), hrnode, hH.rnode]
  · intro m r hfull
    by_cases hcell : m + 1 = k ∧ r = q
    · obtain ⟨hm, rfl⟩ := hcell
      subst hm
      rw [RadixShape.cell_set_self]
      rw [RadixShape.full, RadixShape.cell_set_self] at hfull
      exact hself m rfl hfull
    · rw [RadixShape.full, RadixShape.cell_set_of_ne hcell] at hfull
      rw [RadixShape.cell_set_of_ne hcell]
      obtain ⟨a, ha, hmem⟩ := hH.node m r hfull
      refine ⟨a, ha, ?_⟩
      by_cases hab : a = b
      · obtain ⟨rfl, rfl⟩ := hH.inj _ _ _ _ _ ha (hab ▸ hb)
        rw [hab]
        exact hparent
      · rw [hother m r a ha hcell hab, hmem, RadixShape.record_set_of_ne]
        · rintro ⟨rfl, rfl⟩
          rw [hb] at ha
          exact hab (RadixPtr.node.inj ha).symm
        · rintro ⟨hm, hr⟩
          exact hunder m r hm hr hfull
  · exact honly
  · intro m r m' r' c hc hc'
    by_cases hcell : m + 1 = k ∧ r = q
    · by_cases hcell' : m' + 1 = k ∧ r' = q
      · exact ⟨by omega, by omega⟩
      · rw [RadixShape.cell_set, if_pos hcell] at hc
        rw [RadixShape.cell_set_of_ne hcell'] at hc'
        exact absurd hc' (hfresh m c hcell.1 hc m' r')
    · rw [RadixShape.cell_set_of_ne hcell] at hc
      by_cases hcell' : m' + 1 = k ∧ r' = q
      · rw [RadixShape.cell_set, if_pos hcell'] at hc'
        exact absurd hc (hfresh m' c hcell'.1 hc' m r)
      · rw [RadixShape.cell_set_of_ne hcell'] at hc'
        exact hH.inj _ _ _ _ _ hc hc'

theorem Radix.Holds.set_item (hH : t.Holds S) (hb : S.cell 1 (q / 16) = .node b)
    (hpos : 0 < S.height)
    (hmem : t'.mem = (t.put b ((S.set 0 q p).record 0 (q / 16))).mem)
    (hheight : t'.height = t.height) (hrnode : t'.rnode = t.rnode) : t'.Holds (S.set 0 q p) := by
  have hleaf : S.full 1 (q / 16) := RadixShape.full_of_node hb
  apply hH.of_set hb _ hpos hheight hrnode
  · rw [hmem]
    exact Radix.mem_put_self
  · intro m r c hc hne hcb
    rw [hmem]
    exact Radix.mem_put_of_ne hcb
  · intro m r hm
    omega
  · intro m hm
    omega
  · intro c n hc
    by_cases hcb : c = b
    · exact ⟨0, q / 16, by rw [hcb, RadixShape.cell_set_of_ne (by omega), hb]⟩
    · rw [hmem, Radix.mem_put_of_ne hcb] at hc
      obtain ⟨m, r, hmr⟩ := hH.only c n hc
      exact ⟨m, r, by rw [RadixShape.cell_set_of_ne (by omega), hmr]⟩
  · intro m c hm
    omega
  · apply RadixShape.tree_set hH.tree hpos hleaf
    intro j hj
    omega

/-- A node without children is linked to its parent. -/
theorem Radix.Holds.add_node (hH : t.Holds S) (hb : S.cell (k + 2) (q / 16) = .node b)
    (hk : k + 1 < S.height) (hnull : S.cell (k + 1) q = .null) (ha : t.mem a = none)
    (hmem : t'.mem = ((t.put a ((S.set (k + 1) q (.node a)).record k q)).put b
      ((S.set (k + 1) q (.node a)).record (k + 1) (q / 16))).mem)
    (hheight : t'.height = t.height) (hrnode : t'.rnode = t.rnode) :
    t'.Holds (S.set (k + 1) q (.node a)) := by
  have hup : S.full (k + 2) (q / 16) := RadixShape.full_of_node hb
  have hunused := hH.cell_ne_fresh ha
  have hab : a ≠ b := by
    rintro rfl
    exact hunused _ _ hb
  apply hH.of_set hb _ hk hheight hrnode
  · rw [hmem]
    exact Radix.mem_put_self
  · intro m r c hc hne hcb
    rw [hmem, Radix.mem_put_of_ne hcb, Radix.mem_put_of_ne]
    rintro rfl
    exact hunused _ _ hc
  · intro m r hm hr hfull
    rcases hH.tree.above _ _ hfull with ⟨-, habove⟩ | ⟨-, hroot, -⟩
    · obtain rfl : m + 1 = k := by omega
      rw [hr] at habove
      exact habove hnull
    · omega
  · intro m hm hne
    obtain rfl : m = k := by omega
    exact ⟨a, rfl, by rw [hmem, Radix.mem_put_of_ne hab, Radix.mem_put_self]⟩
  · intro c n hc
    by_cases hcb : c = b
    · exact ⟨k + 1, q / 16, by rw [hcb, RadixShape.cell_set_of_ne (by omega), hb]⟩
    · by_cases hca : c = a
      · exact ⟨k, q, by rw [hca, RadixShape.cell_set_self]⟩
      · rw [hmem, Radix.mem_put_of_ne hcb, Radix.mem_put_of_ne hca] at hc
        obtain ⟨m, r, hmr⟩ := hH.only c n hc
        refine ⟨m, r, ?_⟩
        rw [RadixShape.cell_set_of_ne, hmr]
        rintro ⟨hm, rfl⟩
        obtain rfl : m = k := by omega
        rw [hnull] at hmr
        cases hmr
  · intro m c hm hc m' r'
    obtain rfl := RadixPtr.node.inj hc
    exact hunused m' r'
  · apply RadixShape.tree_set hH.tree hk hup
    intro j hj hp
    cases hp

/-- A node without children is freed and its slot in the parent cleared. -/
theorem Radix.Holds.remove_node (hH : t.Holds S) (hb : S.cell (k + 2) (q / 16) = .node b)
    (hk : k + 1 < S.height) (ha : S.cell (k + 1) q = .node a)
    (hempty : ∀ d < 16, S.cell k (16 * q + d) = .null)
    (hmem : t'.mem = ((t.drop a).put b ((S.set (k + 1) q .null).record (k + 1) (q / 16))).mem)
    (hheight : t'.height = t.height) (hrnode : t'.rnode = t.rnode) :
    t'.Holds (S.set (k + 1) q .null) := by
  have hup : S.full (k + 2) (q / 16) := RadixShape.full_of_node hb
  apply hH.of_set hb _ hk hheight hrnode
  · rw [hmem]
    exact Radix.mem_put_self
  · intro m r c hc hne hcb
    rw [hmem, Radix.mem_put_of_ne hcb, Radix.mem_drop_of_ne]
    rintro rfl
    obtain ⟨rfl, rfl⟩ := hH.inj _ _ _ _ _ hc ha
    exact hne ⟨rfl, rfl⟩
  · intro m r hm hr hfull
    apply hfull
    have hcell := hempty (r % 16) (Nat.mod_lt _ (by decide))
    rw [← hr, Nat.div_add_mod] at hcell
    obtain rfl : m + 1 = k := by omega
    exact hcell
  · intro m hm hne
    exact absurd rfl hne
  · intro c n hc
    by_cases hcb : c = b
    · exact ⟨k + 1, q / 16, by rw [hcb, RadixShape.cell_set_of_ne (by omega), hb]⟩
    · rw [hmem, Radix.mem_put_of_ne hcb] at hc
      by_cases hca : c = a
      · rw [hca, Radix.mem_drop_self] at hc
        cases hc
      · rw [Radix.mem_drop_of_ne hca] at hc
        obtain ⟨m, r, hmr⟩ := hH.only c n hc
        refine ⟨m, r, ?_⟩
        rw [RadixShape.cell_set_of_ne, hmr]
        rintro ⟨hm, rfl⟩
        obtain rfl : m = k := by omega
        rw [ha, RadixPtr.node.injEq] at hmr
        exact hca hmr.symm
  · intro m c hm hc
    cases hc
  · apply RadixShape.tree_set hH.tree hk hup
    intro j hj hp d hd
    obtain rfl : k = j := by omega
    exact not_not_intro (hempty d hd)

theorem RadixShape.record_raise_root (hT : PrefixTree 16 S.height S.full)
    (hpos : 0 < S.height) : (S.raise a).record S.height 0 =
    RadixNode.incCount { radixTreeNodeInit (S.height + 1) with
      slots := Function.update (fun _ => .null) 0 (S.cell S.height 0)
      height := S.height + 1 } := by
  have hslots : (S.raise a).slots S.height 0 =
      Function.update (fun _ => .null) 0 (S.cell S.height 0) := by
    funext d
    rw [RadixShape.slots, RadixShape.cell_raise (Nat.le_refl _), Nat.mul_zero, Nat.zero_add]
    by_cases hd : d = 0
    · rw [hd, Function.update_self, if_pos (by decide)]
    · rw [Function.update_of_ne hd]
      split
      · by_contra hfull
        rcases hT.above _ _ hfull with ⟨hlt, -⟩ | ⟨-, -, hzero⟩
        · omega
        · exact hd hzero
      · rfl
  have hocc : occupied (fun _ => (.null : RadixPtr α)) = 0 :=
    occupied_eq_zero.mpr fun d hd => rfl
  have hcount : occupied (Function.update (fun _ => (.null : RadixPtr α)) 0 (S.cell S.height 0)) =
      occupied (fun _ => (.null : RadixPtr α)) + 1 :=
    occupied_update_of_null (by decide) rfl (hT.root hpos)
  rw [hocc] at hcount
  have hparent : (S.raise a).parent S.height 0 = .null := if_pos rfl
  simp only [RadixShape.record, hslots, hcount, hparent]
  rfl

theorem RadixShape.record_raise {m r : Nat} (hm : m + 1 < S.height) :
    (S.raise a).record m r = S.record m r := by
  have hslots : (S.raise a).slots m r = S.slots m r := by
    funext d
    simp only [RadixShape.slots, RadixShape.cell_raise (show m ≤ S.height by omega)]
  have hparent : (S.raise a).parent m r = S.parent m r := by
    have hne : m + 1 ≠ (S.raise a).height := by
      change m + 1 ≠ S.height + 1
      omega
    rw [RadixShape.parent, RadixShape.parent, if_neg hne, if_neg (by omega),
      RadixShape.cell_raise (by omega)]
  simp only [RadixShape.record, hslots, hparent]

theorem RadixShape.record_raise_old (hk : k + 1 = S.height) :
    (S.raise a).record k 0 = { S.record k 0 with parent := .node a } := by
  have hslots : (S.raise a).slots k 0 = S.slots k 0 := by
    funext d
    simp only [RadixShape.slots, RadixShape.cell_raise (show k ≤ S.height by omega)]
  have hparent : (S.raise a).parent k 0 = .node a := by
    have hne : k + 1 ≠ (S.raise a).height := by
      change k + 1 ≠ S.height + 1
      omega
    rw [RadixShape.parent, if_neg hne, ← RadixShape.cell_raise_root (S := S), ← hk]
  simp only [RadixShape.record, hslots, hparent]

theorem Radix.Holds.raise (hH : t.Holds S) (hk : k + 1 = S.height) (hlt : S.height < 16)
    (hb : S.cell (k + 1) 0 = .node b) (ha : t.mem a = none)
    (hmem : t'.mem = ((t.put b { S.record k 0 with parent := .node a }).put a
      ((S.raise a).record S.height 0)).mem)
    (hheight : t'.height = S.height + 1) (hrnode : t'.rnode = .node a) : t'.Holds (S.raise a) := by
  have hpos : 0 < S.height := by omega
  have hunused := hH.cell_ne_fresh ha
  have hba : b ≠ a := by
    rintro rfl
    exact hunused _ _ hb
  have hold : ∀ {m r}, (S.raise a).full m r → ¬ (m = S.height + 1 ∧ r = 0) → S.full m r := by
    intro m r hfull hne
    rwa [RadixShape.full, ← RadixShape.cell_set_of_ne hne (p := .node a)]
  have hcases : ∀ {m r c}, (S.raise a).cell m r = .node c →
      m = S.height + 1 ∧ r = 0 ∧ c = a ∨ m ≤ S.height ∧ S.cell m r = .node c := by
    intro m r c hc
    by_cases hne : m = S.height + 1 ∧ r = 0
    · rw [hne.1, hne.2, RadixShape.cell_raise_root, RadixPtr.node.injEq] at hc
      exact Or.inl ⟨hne.1, hne.2, hc.symm⟩
    · have hm := hH.tree.le_height (hold (RadixShape.full_of_node hc) hne)
      rw [RadixShape.cell_raise hm] at hc
      exact Or.inr ⟨hm, hc⟩
  constructor
  · exact RadixShape.tree_raise hH.tree
  · exact hlt
  · exact Or.inr rfl
  · exact hheight
  · exact hrnode.trans RadixShape.cell_raise_root.symm
  · intro m r hfull
    by_cases hne : m + 1 = S.height + 1 ∧ r = 0
    · obtain ⟨hm, rfl⟩ := hne
      obtain rfl : m = S.height := by omega
      exact ⟨a, RadixShape.cell_raise_root, by rw [hmem, Radix.mem_put_self]⟩
    · obtain ⟨c, hc, hcmem⟩ := hH.node m r (hold hfull hne)
      have hm := hH.tree.le_height (hold hfull hne)
      refine ⟨c, by rw [RadixShape.cell_raise hm, hc], ?_⟩
      have hca : c ≠ a := fun heq => hunused m r (heq ▸ hc)
      rw [hmem, Radix.mem_put_of_ne hca]
      by_cases hcb : c = b
      · obtain ⟨rfl, rfl⟩ := hH.inj _ _ _ _ _ (hcb ▸ hc) hb
        rw [hcb, Radix.mem_put_self, RadixShape.record_raise_old hk]
      · rw [Radix.mem_put_of_ne hcb, hcmem, RadixShape.record_raise]
        rcases Nat.lt_or_ge (m + 1) S.height with hlt | hge
        · exact hlt
        · -- at the level of the root there is only the root
          exfalso
          rcases hH.tree.above _ _ (hold hfull hne) with ⟨hlt, -⟩ | ⟨-, hroot, rfl⟩
          · omega
          · obtain rfl : m = k := by omega
            rw [hb, RadixPtr.node.injEq] at hc
            exact hcb hc.symm
  · intro c n hc
    rw [hmem] at hc
    by_cases hca : c = a
    · exact ⟨S.height, 0, by rw [hca, RadixShape.cell_raise_root]⟩
    · rw [Radix.mem_put_of_ne hca] at hc
      have hex : ∃ n', t.mem c = some n' := by
        by_cases hcb : c = b
        · obtain ⟨b', hb', hbmem⟩ := hH.node k 0 (RadixShape.full_of_node hb)
          rw [hb, RadixPtr.node.injEq] at hb'
          exact ⟨_, by rw [hcb, hb', hbmem]⟩
        · exact ⟨n, by rwa [Radix.mem_put_of_ne hcb] at hc⟩
      obtain ⟨n', hn'⟩ := hex
      obtain ⟨m, r, hmr⟩ := hH.only c n' hn'
      have hm := hH.tree.le_height (RadixShape.full_of_node hmr)
      exact ⟨m, r, by rw [RadixShape.cell_raise hm, hmr]⟩
  · intro m r m' r' c hc hc'
    rcases hcases hc with ⟨hm, rfl, rfl⟩ | ⟨hm, hkept⟩
    · rcases hcases hc' with ⟨hm', rfl, -⟩ | ⟨hm', hkept'⟩
      · exact ⟨by omega, rfl⟩
      · exact absurd hkept' (hunused m' r')
    · rcases hcases hc' with ⟨hm', rfl, rfl⟩ | ⟨hm', hkept'⟩
      · exact absurd hkept (hunused m r)
      · exact hH.inj _ _ _ _ _ hkept hkept'

theorem RadixShape.record_single :
    (RadixShape.single (k + 1) a : RadixShape α).record k 0 =
      { radixTreeNodeInit (k + 1) with parent := .root, height := k + 1 } := by
  have hslots : (RadixShape.single (k + 1) a : RadixShape α).slots k 0 = fun _ => .null := by
    funext d
    simp [RadixShape.slots, RadixShape.single]
  have hocc : occupied (fun _ => (.null : RadixPtr α)) = 0 :=
    occupied_eq_zero.mpr fun d hd => rfl
  have hparent : (RadixShape.single (k + 1) a : RadixShape α).parent k 0 = .root := if_pos rfl
  simp only [RadixShape.record, hslots, hocc, hparent]
  rfl

theorem Radix.Holds.mem_none (hH : t.Holds S) (hnull : t.rnode = .null) (x : Nat) :
    t.mem x = Option.none := by
  by_contra hsome
  obtain ⟨n, hn⟩ := Option.ne_none_iff_exists'.mp hsome
  obtain ⟨m, r, hmr⟩ := hH.only x n hn
  have hm := hH.tree.le_height (RadixShape.full_of_node hmr)
  exact hH.rnode_ne_null (by omega) hnull

theorem Radix.holds_none (hmem : ∀ x, t.mem x = Option.none) (hheight : t.height = 0)
    (hrnode : t.rnode = .null) : t.Holds RadixShape.none where
  tree := ⟨fun k q hfull => absurd rfl hfull, fun hpos => absurd hpos (Nat.lt_irrefl 0)⟩
  height_le := Nat.zero_le _
  rootParent := Or.inr rfl
  height := hheight
  rnode := hrnode
  node := fun k q hfull => absurd rfl hfull
  only := by
    intro a n hn
    rw [hmem] at hn
    cases hn
  inj := by
    intro k q k' q' a hc
    cases hc

theorem Radix.holds_single (hnone : ∀ x, t.mem x = Option.none) (hk : k + 1 ≤ 16)
    (hmem : t'.mem = (t.put a ((RadixShape.single (k + 1) a).record k 0)).mem)
    (hheight : t'.height = k + 1) (hrnode : t'.rnode = .node a) :
    t'.Holds (RadixShape.single (k + 1) a) := by
  have hcell : ∀ {m r c}, (RadixShape.single (k + 1) a : RadixShape α).cell (m + 1) r = .node c →
      m = k ∧ r = 0 := by
    intro m r c hc
    have hroot := RadixShape.full_single.mp (RadixShape.full_of_node hc)
    exact ⟨by omega, hroot.2⟩
  have hself : (RadixShape.single (k + 1) a : RadixShape α).cell (k + 1) 0 = .node a :=
    if_pos ⟨rfl, rfl⟩
  constructor
  · constructor
    · intro m r hfull
      obtain ⟨rfl, rfl⟩ := RadixShape.full_single.mp hfull
      exact Or.inr ⟨Nat.succ_pos k, rfl, rfl⟩
    · intro _
      exact RadixShape.full_single.mpr ⟨rfl, rfl⟩
  · exact hk
  · exact Or.inl rfl
  · exact hheight
  · exact hrnode.trans hself.symm
  · intro m r hfull
    obtain ⟨hm, rfl⟩ := RadixShape.full_single.mp hfull
    obtain rfl : m = k := by omega
    exact ⟨a, hself, by rw [hmem, Radix.mem_put_self]⟩
  · intro c n hc
    by_cases hca : c = a
    · exact ⟨k, 0, by rw [hca, hself]⟩
    · rw [hmem, Radix.mem_put_of_ne hca, hnone] at hc
      cases hc
  · intro m r m' r' c hc hc'
    obtain ⟨rfl, rfl⟩ := hcell hc
    obtain ⟨rfl, rfl⟩ := hcell hc'
    exact ⟨rfl, rfl⟩

end CcRpc
