import CcRpc.RadixUpdate

/-!
# Insertion into a radix tree
-/

namespace CcRpc

open Prefixes

variable {A : Arena} {α : Type} [DecidableEq α] {t t' : Radix α} {S S' : RadixShape α}
  {k q a b d i h : Nat} {gs : List Nat} {v : α}

theorem Radix.Holds.growChild_full (hH : t.Holds S) (hup : S.full (k + 2) (q / 16))
    (hq : S.full (k + 1) q) :
    growChild (S.cell (k + 2) (q / 16)) (q % 16) h t = some (S.cell (k + 1) q, t) := by
  have hslot := RadixShape.slot_record (S := S) (k := k + 1) (q := q / 16)
    (Nat.mod_lt q (by decide : 16 > 0))
  rw [Nat.div_add_mod] at hslot
  simp only [growChild, hH.load hup, hslot, Option.bind_eq_bind, Option.bind_some, if_neg hq]
  rfl

theorem Radix.Holds.growChild_refused (hH : t.Holds S) (hup : S.full (k + 2) (q / 16))
    (hq : S.cell (k + 1) q = .null) (hgs : t.heap.grants = []) :
    growChild (S.cell (k + 2) (q / 16)) (q % 16) h t =
      some (.null, { t with heap := ⟨[], true⟩ }) := by
  have hlt : q % 16 < 16 := Nat.mod_lt q (by decide)
  have hslot := RadixShape.slot_record (S := S) (k := k + 1) (q := q / 16) hlt
  rw [Nat.div_add_mod, hq] at hslot
  obtain ⟨b, hb, hmem⟩ := hH.node (k + 1) (q / 16) hup
  have hold : (S.record (k + 1) (q / 16)).slots (q % 16) = .null := RadixShape.slots_mod.trans hq
  have hstore : Radix.setSlot { t with heap := ⟨[], true⟩ } (.node b) (q % 16) .null =
      some { t with heap := ⟨[], true⟩ } := by
    rw [Radix.setSlot_node (t := { t with heap := ⟨[], true⟩ }) hmem hlt, ← hold,
      Function.update_eq_self, Radix.put_eq_self]
    exact hmem
  have hload := hH.load hup
  rw [hb] at hload ⊢
  simp only [growChild, hload, hslot, Option.bind_eq_bind, Option.bind_some,
    radixTreeNodeAlloc_nil hgs, hstore]
  rfl

theorem growChild_stores {n : RadixNode α} (hb : t.mem b = some n) (hd : d < 16)
    (hslot : n.slots d = .null) (hgs : t.heap.grants = a :: gs) (hba : b ≠ a) :
    growChild (.node b) d h t = some (.node a, ((t.charge gs).put a
      { radixTreeNodeInit h with offset := d, parent := .node b }).put b
      (RadixNode.incCount { n with slots := Function.update n.slots d (.node a) })) := by
  have hread : n.slot d = some .null := by rw [RadixNode.slot, sizeLevel_eq, if_pos hd, hslot]
  have hload : t.load (.node b) = some n := hb
  have hne : (RadixPtr.node a : RadixPtr α) ≠ .null := by simp
  have hb₀ : ((t.charge gs).put a (radixTreeNodeInit h)).mem b = some n :=
    (Radix.mem_put_of_ne hba).trans hb
  simp only [growChild, hload, hread, Option.bind_eq_bind, Option.bind_some, if_true,
    radixTreeNodeAlloc_cons hgs, Radix.setSlot_node hb₀ hd, if_neg hne]
  rw [Radix.modify_node Radix.mem_put_self, Option.bind_some, Radix.put_put]
  have ha : (((t.charge gs).put a (radixTreeNodeInit h)).put b
      (RadixNode.incCount { n with slots := Function.update n.slots d (.node a) })).mem a =
      some (radixTreeNodeInit h) := by
    rw [Radix.mem_put_of_ne hba.symm, Radix.mem_put_self]
  rw [Radix.modify_node ha, Option.bind_some, Radix.modify_node Radix.mem_put_self,
    Option.bind_some, Radix.put_put, ← Radix.put_comm hba, Radix.put_put]
  rfl

theorem Radix.Holds.growChild_granted (hH : t.Holds S) (hup : S.full (k + 2) (q / 16))
    (hk : k + 1 < S.height) (hq : S.cell (k + 1) q = .null) (hgs : t.heap.grants = a :: gs)
    (ha : t.mem a = none) :
    ∃ t', growChild (S.cell (k + 2) (q / 16)) (q % 16) (k + 1) t = some (.node a, t') ∧
      t'.Holds (S.set (k + 1) q (.node a)) ∧ t'.heap = ⟨gs, t.heap.refused⟩ ∧
      t'.count = uint32 (t.count + 1) ∧
      ∀ x, (∃ n, t'.mem x = some n) ↔ x = a ∨ ∃ n, t.mem x = some n := by
  have hle := hH.height_le
  obtain ⟨b, hb, hmem⟩ := hH.node (k + 1) (q / 16) hup
  have hba : b ≠ a := by
    rintro rfl
    rw [ha] at hmem
    cases hmem
  have hchild : (S.set (k + 1) q (.node a)).record k q =
      { radixTreeNodeInit (k + 1) with offset := q % 16, parent := .node b } := by
    have hslots : (S.set (k + 1) q (.node a)).slots k q = fun _ => .null := by
      funext d
      rw [RadixShape.slots_set_of_ne (by omega)]
      unfold RadixShape.slots
      split
      · exact hH.child_null (by omega) hq (by assumption)
      · rfl
    have hparent : (S.set (k + 1) q (.node a)).parent k q = .node b := by
      rw [RadixShape.parent_set_of_ne (by omega), RadixShape.parent, if_neg (by omega), hb]
    have hheight : uint8 (k + 1) = k + 1 := Nat.mod_eq_of_lt (by omega)
    have hcount : occupied (fun _ => (.null : RadixPtr α)) = 0 :=
      occupied_eq_zero.mpr fun d hd => rfl
    simp only [RadixShape.record, radixTreeNodeInit, hslots, hparent, hheight, hcount]
  have hstores := growChild_stores (h := k + 1) hmem (Nat.mod_lt q (by decide))
    (RadixShape.slots_mod.trans hq) hgs hba
  rw [incCount_record hq (by simp), ← hchild] at hstores
  rw [hb]
  refine ⟨_, hstores, hH.add_node hb hk hq ha rfl rfl rfl, rfl, rfl, ?_⟩
  intro x
  by_cases hxb : x = b
  · simp [hxb, hmem]
  · by_cases hxa : x = a
    · simp [hxa, Radix.mem_put_of_ne hba.symm]
    · rw [Radix.mem_put_of_ne hxb, Radix.mem_put_of_ne hxa]
      simp [hxa, Radix.charge]

/-- `heap_malloc` has returned NULL: either at once, and nothing has changed, or there is now a node
without children. -/
def PathRefused (t t' : Radix α) (S S' : RadixShape α) : Prop :=
  t'.heap = ⟨[], true⟩ ∧ (t.heap.grants = [] → S' = S ∧ t' = { t with heap := ⟨[], true⟩ }) ∧
    (t.heap.grants ≠ [] → ¬ Tight 16 S'.full)

theorem pathOffset_eq {shift : Nat} (hshift : shift = 4 * k) :
    slotOffset i shift = i / 16 ^ k % 16 := by
  rw [hshift]
  exact slotOffset_eq i k

theorem Radix.Holds.growNodeLoop_full (hH : t.Holds S) (hi : S.full 0 i) (hk : k < S.height)
    {shift : Nat} (hshift : 0 < k → shift = 4 * k) :
    growNodeLoop i (k + 1) (S.cell (k + 1) (i / 16 ^ (k + 1))) shift t =
      some (S.cell 1 (i / 16), t) := by
  have hle := hH.height_le
  induction k generalizing shift with
  | zero =>
    rw [zero_add, pow_one]
    rfl
  | succ k ih =>
    have hup := hH.tree.prefixes hi (k := k + 2) (by omega)
    have hq := hH.tree.prefixes hi (k := k + 1) (by omega)
    rw [div_pow_succ] at hup ⊢
    have hshift' : 0 < k → nextShift 8 shift = 4 * k := fun _ => by
      rw [hshift (by omega)]
      exact nextShift_eq (by decide) (by omega)
    have hnext := ih (by omega) hshift'
    simp only [growNodeLoop, pathOffset_eq (hshift (Nat.succ_pos k)), hH.growChild_full hup hq,
      Option.bind_eq_bind, Option.bind_some, if_neg hq, hnext]

/-- The `while` loop of `radix_tree_grow_node`. -/
theorem Radix.Holds.growNodeLoop (hH : t.Holds S) (hS : t.Stocked A)
    (hq : S.full (k + 1) (i / 16 ^ (k + 1))) {shift : Nat} (hshift : 0 < k → shift = 4 * k) :
    ∃ leaf t' S', growNodeLoop i (k + 1) (S.cell (k + 1) (i / 16 ^ (k + 1))) shift t =
        some (leaf, t') ∧ t'.Holds S' ∧ t'.Stocked A ∧ S.Grown S' i ∧
      (leaf = S'.cell 1 (i / 16) ∧ S'.full 1 (i / 16) ∧ t'.heap.refused = t.heap.refused ∨
        leaf = .null ∧ PathRefused t t' S S') := by
  have hle := hH.height_le
  have hk := hH.tree.le_height hq
  induction k generalizing shift t S with
  | zero =>
    rw [zero_add, pow_one] at hq ⊢
    exact ⟨_, t, S, rfl, hH, hS, .refl S i, Or.inl ⟨rfl, hq, rfl⟩⟩
  | succ k ih =>
    have hoffset := pathOffset_eq (i := i) (hshift (Nat.succ_pos k))
    have hnext : 0 < k → nextShift 8 shift = 4 * k := by
      intro hpos
      rw [hshift (by omega)]
      exact nextShift_eq (by decide) (by omega)
    rw [div_pow_succ] at hq ⊢
    by_cases hnull : S.cell (k + 1) (i / 16 ^ (k + 1)) = .null
    · cases hgs : t.heap.grants with
      | nil =>
        refine ⟨.null, { t with heap := ⟨[], true⟩ }, S, ?_, hH.congr rfl rfl rfl,
          ⟨hS.counted, List.nodup_nil, by simp⟩, .refl S i,
          Or.inr ⟨rfl, rfl, fun _ => ⟨rfl, rfl⟩, fun hne => absurd hgs hne⟩⟩
        simp only [CcRpc.growNodeLoop, hoffset, hH.growChild_refused hq hnull hgs,
          Option.bind_eq_bind, Option.bind_some, if_true]
        rfl
      | cons a gs =>
        have hfresh := (hS.fresh.2 a (by simp [hgs])).2
        obtain ⟨t₁, hchild, hH₁, hheap, hcount, hmem⟩ :=
          hH.growChild_granted hq (by omega) hnull hgs hfresh
        have hS₁ : t₁.Stocked A := hS.grant hgs (by rw [hheap]) hcount hmem
        have hfull : (S.set (k + 1) (i / 16 ^ (k + 1)) (.node a)).full (k + 1)
            (i / 16 ^ (k + 1)) := RadixShape.full_of_node RadixShape.cell_set_self
        obtain ⟨leaf, t', S', hloop, hH', hS', hG, hout⟩ :=
          ih hH₁ hS₁ hfull hnext hle (by simp only [RadixShape.height_set]; omega)
        rw [RadixShape.cell_set_self] at hloop
        refine ⟨leaf, t', S', ?_, hH', hS', hG.set_trans hnull rfl, ?_⟩
        · simp only [CcRpc.growNodeLoop, hoffset, hchild, Option.bind_eq_bind, Option.bind_some,
            if_neg (show (RadixPtr.node a : RadixPtr α) ≠ .null by simp), hloop]
        · rcases hout with ⟨hleaf, hfull', href⟩ | ⟨hleaf, href, hfirst, hlater⟩
          · exact Or.inl ⟨hleaf, hfull', by rw [href, hheap]⟩
          · have hne : t.heap.grants ≠ [] := by
              rw [hgs]
              exact List.cons_ne_nil a gs
            refine Or.inr ⟨hleaf, href, fun hnil => absurd hnil hne, fun _ => ?_⟩
            rw [hheap] at hfirst hlater
            by_cases hgs' : gs = []
            · -- the node just linked is the last one, and empty
              rw [(hfirst hgs').1]
              intro hT
              obtain ⟨d, hd, hchild⟩ := hT k _ hfull
              rw [RadixShape.full, RadixShape.cell_set_of_ne (by omega)] at hchild
              exact hchild (hH.child_null (by omega) hnull hd)
            · exact hlater hgs'
    · obtain ⟨leaf, t', S', hloop, hrest⟩ := ih hH hS hnull hnext hle (by omega)
      refine ⟨leaf, t', S', ?_, hrest⟩
      simp only [CcRpc.growNodeLoop, hoffset, hH.growChild_full hq hnull, Option.bind_eq_bind,
        Option.bind_some, if_neg hnull, hloop]

theorem Radix.Holds.growNode_full (hH : t.Holds S) (hi : S.full 0 i) :
    radixTreeGrowNode t i v = some (-1, t) := by
  have hpos := hH.tree.height_pos hi
  have hle := hH.height_le
  obtain ⟨h, hh⟩ := Nat.exists_eq_succ_of_ne_zero hpos.ne'
  have hheight : uint8 t.height = h + 1 := by
    rw [hH.height, hh]
    exact Nat.mod_eq_of_lt (by omega)
  have hroot : t.rnode = S.cell (h + 1) (i / 16 ^ (h + 1)) := by
    have hlt := hH.tree.lt_pow (by decide) hi
    rw [hh] at hlt
    rw [hH.rnode, hh, Nat.div_eq_of_lt hlt]
  have hshift : 0 < h → firstShift 8 (h + 1) = 4 * h := fun _ =>
    firstShift_eq (by decide) (by omega)
  have hloop := hH.growNodeLoop_full hi (k := h) (by omega) hshift
  have hleaf : S.full 1 (i / 16) := by
    have hprefix := hH.tree.prefixes hi (k := 1) (by omega)
    rwa [pow_one] at hprefix
  have hslot := RadixShape.slot_record (S := S) (k := 0) (q := i / 16)
    (Nat.mod_lt i (by decide : 16 > 0))
  rw [Nat.div_add_mod] at hslot
  simp only [radixTreeGrowNode, hheight, hroot, hloop, leafOffset_eq, hH.load hleaf, hslot,
    Option.bind_eq_bind, Option.bind_some, if_neg hleaf]
  exact if_pos hi

theorem Radix.Holds.growNode (hH : t.Holds S) (hS : t.Stocked A) (hpos : 0 < S.height)
    (hi : i < 16 ^ S.height) (hfree : S.cell 0 i = .null) :
    ∃ r t' S', radixTreeGrowNode t i v = some (r, t') ∧ t'.Holds S' ∧ t'.Stocked A ∧
      (r = 0 ∧ t'.heap.refused = t.heap.refused ∧ S.Stored S' i v ∨
        r = -1 ∧ S.Grown S' i ∧ PathRefused t t' S S') := by
  have hle := hH.height_le
  obtain ⟨h, hh⟩ := Nat.exists_eq_succ_of_ne_zero hpos.ne'
  have hheight : uint8 t.height = h + 1 := by
    rw [hH.height, hh]
    exact Nat.mod_eq_of_lt (by omega)
  have hzero : i / 16 ^ (h + 1) = 0 := by
    rw [hh] at hi
    exact Nat.div_eq_of_lt hi
  have hroot : t.rnode = S.cell (h + 1) (i / 16 ^ (h + 1)) := by rw [hH.rnode, hh, hzero]
  have hq : S.full (h + 1) (i / 16 ^ (h + 1)) := by
    rw [hzero, ← Nat.succ_eq_add_one, ← hh]
    exact hH.tree.root hpos
  have hshift : 0 < h → firstShift 8 (h + 1) = 4 * h := fun _ =>
    firstShift_eq (by decide) (by omega)
  obtain ⟨leaf, t₁, S₁, hloop, hH₁, hS₁, hG, hout⟩ := hH.growNodeLoop hS hq hshift
  rcases hout with ⟨rfl, hleaf, href⟩ | ⟨rfl, href⟩
  · have hslot := RadixShape.slot_record (S := S₁) (k := 0) (q := i / 16)
      (Nat.mod_lt i (by decide : 16 > 0))
    rw [Nat.div_add_mod, hG.items, hfree] at hslot
    obtain ⟨b, hb, hmem⟩ := hH₁.node 0 (i / 16) hleaf
    have hload := hH₁.load hleaf
    rw [zero_add] at hb
    rw [zero_add, hb] at hload
    have hne : (RadixPtr.node b : RadixPtr α) ≠ .null := by simp
    have hnull : S₁.cell 0 i = .null := by rw [hG.items, hfree]
    have hitem : (RadixPtr.item v : RadixPtr α) ≠ .null := by simp
    refine ⟨0, t₁.put b ((S₁.set 0 i (.item v)).record 0 (i / 16)), S₁.set 0 i (.item v), ?_,
      ?_, ?_, Or.inl ⟨rfl, href, ?_⟩⟩
    · simp only [radixTreeGrowNode, hheight, hroot, hloop, hb, leafOffset_eq, hload, hslot,
        Option.bind_eq_bind, Option.bind_some, if_neg hne, ne_eq, not_true_eq_false, if_false,
        Radix.setSlot_node hmem (Nat.mod_lt i (by decide)), Radix.modify_node Radix.mem_put_self,
        Radix.put_put, incCount_record hnull hitem]
      rfl
    · exact hH₁.set_item hb (hG.height ▸ hpos) rfl rfl rfl
    · exact hS₁.put hmem
    · have htree := RadixShape.tree_set (p := .item v) (q := i) hH₁.tree (hG.height ▸ hpos) hleaf
        fun j hj => by omega
      refine ⟨?_, fun hT => hG.tight hT htree⟩
      rw [← hG.items]
      simp only [RadixShape.set, Function.update_self]
  · refine ⟨-1, t₁, S₁, ?_, hH₁, hS₁, Or.inr ⟨rfl, hG, href⟩⟩
    simp only [radixTreeGrowNode, hheight, hroot, hloop, Option.bind_eq_bind, Option.bind_some,
      if_true]
    rfl

theorem growHeightLoop_stores {n : RadixNode α} (hb : t.mem b = some n) (hroot : t.rnode = .node b)
    (hgs : t.heap.grants = a :: gs) (hba : b ≠ a) (m : Nat) :
    growHeightLoop (m + 1) t = growHeightLoop m { ((Radix.charge { t with height := t.height + 1 }
      gs).put b { n with parent := .node a }).put a (RadixNode.incCount
        { radixTreeNodeInit (t.height + 1) with
          slots := Function.update (fun _ => .null) 0 (.node b) }) with rnode := .node a } := by
  have halloc := radixTreeNodeAlloc_cons (t := { t with height := t.height + 1 })
    (h := t.height + 1) hgs
  have hne : (RadixPtr.node a : RadixPtr α) ≠ .null := by simp
  rw [growHeightLoop]
  simp only [halloc, if_neg hne]
  generalize hcharge : Radix.charge { t with height := t.height + 1 } gs = t₀
  have hb₁ : (t₀.put a { radixTreeNodeInit (t.height + 1) with offset := 0 }).mem b = some n := by
    rw [Radix.mem_put_of_ne hba, ← hcharge]
    exact hb
  have hroot₁ : t₀.rnode = .node b := by
    rw [← hcharge]
    exact hroot
  have ha₁ : ((t₀.put a { radixTreeNodeInit (t.height + 1) with offset := 0 }).put b
      { n with parent := .node a }).mem a =
      some { radixTreeNodeInit (t.height + 1) with offset := 0 } := by
    rw [Radix.mem_put_of_ne hba.symm, Radix.mem_put_self]
  simp only [Radix.modify_node Radix.mem_put_self, Option.bind_eq_bind, Option.bind_some,
    Radix.put_put, Radix.rnode_put, hroot₁, Radix.modify_node hb₁,
    Radix.setSlot_node ha₁ (by decide : 0 < 16)]
  rw [Radix.put_comm hba, Radix.put_put]
  rfl

/-- One iteration that is given its node. -/
theorem Radix.Holds.growHeightLoop_succ (hH : t.Holds S) (hpos : 0 < S.height)
    (hlt : S.height < 16) (hgs : t.heap.grants = a :: gs) (ha : t.mem a = none) (n : Nat) :
    ∃ t', growHeightLoop (n + 1) t = growHeightLoop n t' ∧ t'.Holds (S.raise a) ∧
      t'.heap = ⟨gs, t.heap.refused⟩ ∧ t'.count = uint32 (t.count + 1) ∧
      ∀ x, (∃ m, t'.mem x = some m) ↔ x = a ∨ ∃ m, t.mem x = some m := by
  obtain ⟨k, hk⟩ := Nat.exists_eq_succ_of_ne_zero hpos.ne'
  have hroot := hH.tree.root hpos
  rw [hk] at hroot
  obtain ⟨b, hb, hmem⟩ := hH.node k 0 hroot
  have hba : b ≠ a := by
    rintro rfl
    rw [ha] at hmem
    cases hmem
  have hrnode : t.rnode = .node b := by rw [hH.rnode, hk, ← hb]
  have hinit : RadixNode.incCount { radixTreeNodeInit (t.height + 1) with
      slots := Function.update (fun _ => .null) 0 (.node b) } =
      (S.raise a).record S.height 0 := by
    have hheight : uint8 (t.height + 1) = S.height + 1 := by
      rw [hH.height]
      exact Nat.mod_eq_of_lt (by omega)
    have hcell : S.cell S.height 0 = .node b := by rw [← hrnode, hH.rnode]
    rw [RadixShape.record_raise_root hH.tree hpos, hcell]
    simp only [radixTreeNodeInit, hheight]
  have hstores := growHeightLoop_stores hmem hrnode hgs hba n
  rw [hinit] at hstores
  refine ⟨_, hstores, hH.raise hk.symm hlt hb ha rfl ?_ rfl, rfl, rfl, ?_⟩
  · exact congrArg (· + 1) hH.height
  · intro x
    by_cases hxa : x = a
    · simp [hxa]
    · by_cases hxb : x = b
      · simp [hxb, hba, Radix.mem_put_of_ne hba, hmem]
      · simp only [Radix.mem_put_of_ne hxa, Radix.mem_put_of_ne hxb]
        simp [hxa, Radix.charge]

/-- `radix_tree_grow_height` after a failure: the height has been counted up, the node is missing. -/
structure HeightTorn (t' : Radix α) (S S' : RadixShape α) : Prop where
  holds : Radix.Holds { t' with height := S'.height } S'
  height : t'.height = S'.height + 1
  items : S'.cell 0 = S.cell 0

theorem Radix.Holds.growHeightLoop (hH : t.Holds S) (hS : t.Stocked A) (hpos : 0 < S.height)
    {n : Nat} (hn : S.height + n ≤ 16) :
    ∃ r t' S', growHeightLoop n t = some (r, t') ∧
      (r = (S.height + n : Nat) ∧ t'.Holds S' ∧ t'.Stocked A ∧ t'.heap.refused = t.heap.refused ∧
          S'.height = S.height + n ∧ S'.cell 0 = S.cell 0 ∧
          (Tight 16 S.full → Tight 16 S'.full) ∨
        r = -1 ∧ t'.heap = ⟨[], true⟩ ∧ HeightTorn t' S S' ∧ S'.height < S.height + n) := by
  induction n generalizing t S with
  | zero =>
    refine ⟨_, t, S, rfl, Or.inl ⟨?_, hH, hS, rfl, rfl, rfl, id⟩⟩
    rw [hH.height]
    rfl
  | succ n ih =>
    cases hgs : t.heap.grants with
    | nil =>
      refine ⟨-1, { t with height := t.height + 1, heap := ⟨[], true⟩ }, S, ?_,
        Or.inr ⟨rfl, rfl, ⟨?_, ?_, rfl⟩, by omega⟩⟩
      · rw [CcRpc.growHeightLoop]
        simp only [radixTreeNodeAlloc_nil (t := { t with height := t.height + 1 }) hgs, if_true]
        rfl
      · exact hH.congr rfl hH.height.symm rfl
      · exact congrArg (· + 1) hH.height
    | cons a gs =>
      have ha := (hS.fresh.2 a (by simp [hgs])).2
      obtain ⟨t₁, hstep, hH₁, hheap, hcount, hmem⟩ :=
        hH.growHeightLoop_succ hpos (by omega) hgs ha n
      have hheight : (S.raise a).height = S.height + 1 := rfl
      have hitems : (S.raise a).cell 0 = S.cell 0 := by
        funext i
        exact RadixShape.cell_raise (Nat.zero_le _)
      obtain ⟨r, t', S', hloop, hout⟩ := ih hH₁ (hS.grant hgs (by rw [hheap]) hcount hmem)
        (Nat.succ_pos _) (by omega)
      refine ⟨r, t', S', hstep.trans hloop, ?_⟩
      rcases hout with ⟨hr, hH', hS', href, hh, hcell, htight⟩ | ⟨hr, hheap', htorn, hlt⟩
      · left
        refine ⟨?_, hH', hS', by rw [href, hheap], by omega, hcell.trans hitems, fun hT => ?_⟩
        · rw [hr, hheight]
          congr 1
          omega
        · exact htight (RadixShape.tight_raise hT hH.tree hpos)
      · exact Or.inr ⟨hr, hheap', ⟨htorn.holds, htorn.height, htorn.items.trans hitems⟩, by omega⟩

/-- How `radix_tree_insert` leaves the tree when `heap_malloc` has returned NULL. -/
inductive InsertRefused (A : Arena) (t t' : Radix α) (S : RadixShape α) (i : Nat) : Prop
  | unchanged (hgrants : t.heap.grants = []) (hlow : t.rnode = .null ∨ radixTreeHeight i ≤ t.height)
      (heq : t' = { t with heap := ⟨[], true⟩ })
  | hollow (S' : RadixShape α) (hgrants : t.heap.grants ≠ []) (holds : t'.Holds S')
      (counted : t'.Counted A) (hollow : ¬ Tight 16 S'.full) (items : S'.cell 0 = S.cell 0)
  | raised (S' : RadixShape α) (hroot : t.rnode ≠ .null) (hhigh : t.height < radixTreeHeight i)
      (holds : t'.Holds S') (height : S'.height = radixTreeHeight i) (items : S'.cell 0 = S.cell 0)
  | torn (S' : RadixShape α) (hroot : t.rnode ≠ .null) (hhigh : t.height < radixTreeHeight i)
      (htorn : HeightTorn t' S S') (hlt : S'.height < radixTreeHeight i)

theorem radixTreeHeight_le_16 (hi : i < 2 ^ 64) : radixTreeHeight i ≤ 16 := by
  rw [radixTreeHeight_le (by decide)]
  exact hi

theorem Radix.Holds.insert_full (hH : t.Holds S) (hi : S.full 0 i) :
    radixTreeInsert t i v = some (-1, t) := by
  have hpos := hH.tree.height_pos hi
  have hfits := (radixTreeHeight_le hpos).mpr (hH.tree.lt_pow (by decide) hi)
  have hlow : ¬ t.height < radixTreeHeight i := by
    rw [hH.height]
    omega
  simp only [radixTreeInsert, if_neg (hH.rnode_ne_null hpos), if_neg hlow]
  exact hH.growNode_full hi

theorem Radix.Holds.insert_root (hH : t.Holds S) (hS : t.Stocked A) (hnull : t.rnode = .null)
    (hgs : t.heap.grants = a :: gs) (hi : radixTreeHeight i ≤ 16) :
    ∃ t', radixTreeInsert t i v = radixTreeGrowNode t' i v ∧
      t'.Holds (RadixShape.single (radixTreeHeight i) a) ∧ t'.Stocked A ∧
      t'.heap = ⟨gs, t.heap.refused⟩ := by
  obtain ⟨k, hk⟩ := Nat.exists_eq_succ_of_ne_zero (radixTreeHeight_pos i).ne'
  have hne : (RadixPtr.node a : RadixPtr α) ≠ .null := by simp
  have hnone := hH.mem_none hnull
  let node : RadixNode α := { radixTreeNodeInit (radixTreeHeight i) with parent := .root }
  have hrec : node = (RadixShape.single (k + 1) a).record k 0 := by
    have hheight : uint8 (k + 1) = k + 1 := Nat.mod_eq_of_lt (by omega)
    rw [RadixShape.record_single]
    simp only [node, hk, Nat.succ_eq_add_one, radixTreeNodeInit, hheight]
  refine ⟨{ (t.charge gs).put a node with rnode := .node a, height := radixTreeHeight i }, ?_, ?_,
    ?_, rfl⟩
  · simp only [radixTreeInsert, if_pos hnull, radixTreeNodeAlloc_cons hgs, if_neg hne]
    have hmodify := Radix.modify_node (t := { (t.charge gs).put a
      (radixTreeNodeInit (radixTreeHeight i)) with rnode := .node a })
      Radix.mem_put_self fun n => { n with parent := .root }
    refine (congrArg (fun x => Option.bind x _) hmodify).trans ?_
    rw [Option.bind_some]
    congr 1
    simp only [Radix.put, Function.update_idem, node]
  · rw [hk]
    exact Radix.holds_single hnone (by omega) (by rw [← hrec]; rfl) rfl rfl
  · apply hS.grant hgs rfl rfl
    intro x
    by_cases hxa : x = a
    · simp [hxa, Radix.put]
    · simp [hxa, Radix.put, Radix.charge]

/-- A free index: the item is stored, or `heap_malloc` has returned NULL. -/
theorem Radix.Holds.insert (hH : t.Holds S) (hS : t.Stocked A) (hi : i < 2 ^ 64)
    (hfree : S.cell 0 i = .null) :
    ∃ r t', radixTreeInsert t i v = some (r, t') ∧
      ((∃ S', r = 0 ∧ t'.heap.refused = t.heap.refused ∧ t'.Holds S' ∧ t'.Stocked A ∧
          S'.cell 0 = Function.update (S.cell 0) i (.item v) ∧
          (Tight 16 S.full → Tight 16 S'.full)) ∨
        r = -1 ∧ t'.heap = ⟨[], true⟩ ∧ InsertRefused A t t' S i) := by
  have h16 := radixTreeHeight_le_16 hi
  have hpow := lt_pow_radixTreeHeight i
  have hipos := radixTreeHeight_pos i
  by_cases hnull : t.rnode = .null
  · cases hgs : t.heap.grants with
    | nil =>
      refine ⟨-1, { t with heap := ⟨[], true⟩ }, ?_, Or.inr ⟨rfl, rfl,
        .unchanged hgs (Or.inl hnull) rfl⟩⟩
      simp only [radixTreeInsert, if_pos hnull, radixTreeNodeAlloc_nil hgs, if_true]
      rw [← hnull]
      rfl
    | cons a gs =>
      have hempty : ∀ j, S.cell 0 j = .null := fun j => hH.empty hnull
      have hitems : (RadixShape.single (radixTreeHeight i) a).cell 0 = S.cell 0 := by
        funext j
        rw [hempty]
        exact if_neg (by omega)
      obtain ⟨t₁, hcall, hH₁, hS₁, hheap₁⟩ := hH.insert_root (v := v) hS hnull hgs h16
      obtain ⟨r, t', S', hgrow, hH', hS', hout⟩ := hH₁.growNode (v := v) hS₁ hipos hpow
        (by rw [hitems, hfree])
      refine ⟨r, t', hcall.trans hgrow, ?_⟩
      have hroot : ∀ {m q}, (RadixShape.single (radixTreeHeight i) a : RadixShape α).full m q →
          m = radixTreeHeight i ∧ q = 0 := RadixShape.full_single.mp
      rcases hout with ⟨hr, href, hst⟩ | ⟨hr, hG, hheap, hfirst, hlater⟩
      · refine Or.inl ⟨S', hr, by rw [href, hheap₁], hH', hS', by rw [hst.cell, hitems],
          fun _ => hst.tight ?_⟩
        -- the only node is on the path
        intro m q hq hpath
        obtain ⟨hm, hzero⟩ := hroot hq
        rw [hm, Nat.div_eq_of_lt hpow] at hpath
        exact absurd hzero hpath
      · refine Or.inr ⟨hr, hheap, .hollow S' (by simp [hgs]) hH' hS'.counted ?_ (hG.items.trans hitems)⟩
        rw [hheap₁] at hfirst hlater
        by_cases hgs' : gs = []
        · rw [(hfirst hgs').1]
          intro hT
          obtain ⟨m, hm⟩ := Nat.exists_eq_succ_of_ne_zero hipos.ne'
          obtain ⟨d, hd, hchild⟩ := hT m 0 (RadixShape.full_single.mpr ⟨hm.symm, rfl⟩)
          have hm' := (hroot hchild).1
          omega
        · exact hlater hgs'
  · have hpos := hH.height_pos hnull
    by_cases hlow : t.height < radixTreeHeight i
    · have hlow' := hlow
      rw [hH.height] at hlow'
      have hsum : S.height + (radixTreeHeight i - S.height) = radixTreeHeight i := by omega
      obtain ⟨r₁, t₁, S₁, hloop, hout₁⟩ :=
        hH.growHeightLoop hS hpos (n := radixTreeHeight i - S.height) (by omega)
      rw [← hH.height] at hloop
      rw [hsum] at hout₁
      rcases hout₁ with ⟨hr₁, hH₁, hS₁, href₁, hheight, hitems, htight⟩ | ⟨rfl, hheap, htorn, hlt⟩
      · have hnonneg : ¬ r₁ < 0 := by omega
        obtain ⟨r, t', S', hgrow, hH', hS', hout⟩ := hH₁.growNode (v := v) hS₁
          (by rw [hheight]; exact hipos) (by rw [hheight]; exact hpow) (by rw [hitems, hfree])
        refine ⟨r, t', ?_, ?_⟩
        · simp only [radixTreeInsert, if_neg hnull, if_pos hlow, radixTreeGrowHeight, hloop,
            Option.bind_eq_bind, Option.bind_some, if_neg hnonneg]
          exact hgrow
        · rcases hout with ⟨hr, href, hst⟩ | ⟨hr, hG, hheap, -⟩
          · exact Or.inl ⟨S', hr, href.trans href₁, hH', hS', by rw [hst.cell, hitems],
              fun hT => hst.tight ((htight hT).off i)⟩
          · exact Or.inr ⟨hr, hheap, .raised S' hnull hlow hH' (hG.height.trans hheight)
              (hG.items.trans hitems)⟩
      · refine ⟨-1, t₁, ?_, Or.inr ⟨rfl, hheap, .torn S₁ hnull hlow htorn hlt⟩⟩
        simp only [radixTreeInsert, if_neg hnull, if_pos hlow, radixTreeGrowHeight, hloop,
          Option.bind_eq_bind, Option.bind_some]
        rfl
    · have hlow' := Nat.not_lt.mp hlow
      have hfits : i < 16 ^ S.height := by
        rw [hH.height] at hlow'
        exact (radixTreeHeight_le hpos).mp hlow'
      obtain ⟨r, t', S', hgrow, hH', hS', hout⟩ := hH.growNode (v := v) hS hpos hfits hfree
      refine ⟨r, t', ?_, ?_⟩
      · simp only [radixTreeInsert, if_neg hnull, if_neg hlow]
        exact hgrow
      · rcases hout with ⟨hr, href, hst⟩ | ⟨hr, hG, hheap, hfirst, hlater⟩
        · exact Or.inl ⟨S', hr, href, hH', hS', hst.cell, fun hT => hst.tight (hT.off i)⟩
        · refine Or.inr ⟨hr, hheap, ?_⟩
          by_cases hgs : t.heap.grants = []
          · exact .unchanged hgs (Or.inr hlow') (hfirst hgs).2
          · exact .hollow S' hgs hH' hS'.counted (hlater hgs) hG.items

end CcRpc
