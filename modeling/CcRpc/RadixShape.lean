import CcRpc.Radix

/-!
# The shape of a radix tree

What the memory of a tree holds is told by its cells: the item of every index, and for every level
and prefix the node that covers the indexes with this prefix. The record of a node follows from the
cells around it.
-/

namespace CcRpc

open Prefixes

variable {α : Type}

@[simp] theorem sizeLevel_eq : sizeLevel = 16 := rfl

/-- The cells at level 0 hold items, those above hold nodes. `rootParent` is the parent of the root. -/
structure RadixShape (α : Type) where
  height : Nat
  cell : Nat → Nat → RadixPtr α
  rootParent : RadixPtr α

namespace RadixShape

def full (S : RadixShape α) (k q : Nat) : Prop := S.cell k q ≠ .null

/-- The slots of the node of level `k + 1` with prefix `q`. -/
def slots (S : RadixShape α) (k q : Nat) (d : Nat) : RadixPtr α :=
  if d < 16 then S.cell k (16 * q + d) else .null

def parent (S : RadixShape α) (k q : Nat) : RadixPtr α :=
  if k + 1 = S.height then S.rootParent else S.cell (k + 2) (q / 16)

def set (S : RadixShape α) (k q : Nat) (p : RadixPtr α) : RadixShape α :=
  { S with cell := Function.update S.cell k (Function.update (S.cell k) q p) }

end RadixShape

theorem slotOffset_eq (index k : Nat) : slotOffset index (4 * k) = digit 16 k index := by
  have hmask : sizeLevel - 1 = 2 ^ 4 - 1 := rfl
  have hpow : 2 ^ (4 * k) = 16 ^ k := pow_mul 2 4 k
  rw [slotOffset, hmask, Nat.and_two_pow_sub_one_eq_mod, Nat.shiftRight_eq_div_pow, hpow]
  rfl

theorem leafOffset_eq (index : Nat) : index &&& (sizeLevel - 1) = index % 16 := by
  have hmask : sizeLevel - 1 = 2 ^ 4 - 1 := rfl
  rw [hmask, Nat.and_two_pow_sub_one_eq_mod]

theorem firstShift_eq {bits k : Nat} (hbits : 8 ≤ bits) (hk : k ≤ 15) :
    firstShift bits (k + 1) = 4 * k := by
  have hpow : 2 ^ 8 ≤ 2 ^ bits := Nat.pow_le_pow_right (by decide) hbits
  have hsum : (k + 1) * bitLevel + (2 ^ bits - bitLevel) = 4 * k + 2 ^ bits := by
    rw [bitLevel]
    omega
  rw [firstShift, hsum, Nat.add_mod_right, Nat.mod_eq_of_lt (by omega)]

theorem nextShift_eq {bits k : Nat} (hbits : 8 ≤ bits) (hk : k ≤ 15) :
    nextShift bits (4 * (k + 1)) = 4 * k := by
  have hpow : 2 ^ 8 ≤ 2 ^ bits := Nat.pow_le_pow_right (by decide) hbits
  have hsum : 4 * (k + 1) + (2 ^ bits - bitLevel) = 4 * k + 2 ^ bits := by
    rw [bitLevel]
    omega
  rw [nextShift, hsum, Nat.add_mod_right, Nat.mod_eq_of_lt (by omega)]

theorem nextSlot_eq (n : RadixNode α) (o : Nat) : n.nextSlot o =
    if RadixNode.skipNull n.slots (16 - (o + 1)) (o + 1) < 16 then
      n.slots (RadixNode.skipNull n.slots (16 - (o + 1)) (o + 1))
    else .null := rfl

theorem radixTreeHeight_pos (index : Nat) : 0 < radixTreeHeight index := by
  unfold radixTreeHeight
  split
  · exact Nat.one_pos
  · exact Nat.succ_pos _

theorem radixTreeHeight_le {index h : Nat} (hh : 0 < h) :
    radixTreeHeight index ≤ h ↔ index < 16 ^ h := by
  have hpow : 16 ^ h = 2 ^ (4 * h) := (pow_mul 2 4 h).symm
  by_cases hzero : index = 0
  · have hpos : 0 < 16 ^ h := Nat.pow_pos (by decide)
    rw [radixTreeHeight, if_pos hzero, hzero]
    omega
  · rw [radixTreeHeight, if_neg hzero, hpow, ← Nat.log2_lt hzero]
    unfold bitLevel
    omega

theorem lt_pow_radixTreeHeight (i : Nat) : i < 16 ^ radixTreeHeight i :=
  (radixTreeHeight_le (radixTreeHeight_pos i)).mp (Nat.le_refl _)

theorem radixTreeHeight_mono {i j : Nat} (hij : i ≤ j) : radixTreeHeight i ≤ radixTreeHeight j :=
  (radixTreeHeight_le (radixTreeHeight_pos j)).mpr (hij.trans_lt (lt_pow_radixTreeHeight j))

theorem mod_of_height_le {index h : Nat} (hi : radixTreeHeight index ≤ h) :
    index % 16 ^ h = index := by
  have hpos := radixTreeHeight_pos index
  exact Nat.mod_eq_of_lt ((radixTreeHeight_le (by omega)).mp hi)

namespace RadixShape

variable {p : RadixPtr α} {S S' : RadixShape α} {k q m r a d i : Nat} {v : α}

@[simp] theorem height_set : (S.set k q p).height = S.height := rfl
@[simp] theorem rootParent_set : (S.set k q p).rootParent = S.rootParent := rfl

theorem cell_set : (S.set k q p).cell m r = if m = k ∧ r = q then p else S.cell m r := by
  by_cases hm : m = k
  · subst hm
    by_cases hr : r = q
    · simp [set, hr]
    · simp [set, hr]
  · simp [set, hm]

@[simp] theorem cell_set_self : (S.set k q p).cell k q = p := by simp [cell_set]

theorem cell_set_of_ne (hne : ¬ (m = k ∧ r = q)) : (S.set k q p).cell m r = S.cell m r := by
  rw [cell_set, if_neg hne]

theorem slots_set_parent : (S.set k q p).slots k (q / 16) =
    Function.update (S.slots k (q / 16)) (q % 16) p := by
  funext d
  by_cases hd : d = q % 16
  · have hq : 16 * (q / 16) + q % 16 = q := Nat.div_add_mod q 16
    have hlt : q % 16 < 16 := Nat.mod_lt _ (by decide)
    rw [hd, Function.update_self, slots, if_pos hlt, hq, cell_set_self]
  · rw [Function.update_of_ne hd]
    unfold slots
    split
    · rw [cell_set_of_ne]
      omega
    · rfl

theorem slots_set_of_ne (hne : ¬ (m = k ∧ r = q / 16)) :
    (S.set k q p).slots m r = S.slots m r := by
  funext d
  unfold slots
  split
  · rw [cell_set_of_ne]
    omega
  · rfl

theorem parent_set_of_ne (hne : ¬ (m + 2 = k ∧ r / 16 = q)) :
    (S.set k q p).parent m r = S.parent m r := by
  unfold parent
  rw [height_set, rootParent_set, cell_set_of_ne hne]

theorem slots_mod : S.slots k (q / 16) (q % 16) = S.cell k q := by
  rw [slots, if_pos (Nat.mod_lt _ (by decide)), Nat.div_add_mod]

theorem full_of_node {a : Nat} (hq : S.cell k q = .node a) : S.full k q := by
  intro hnull
  rw [hq] at hnull
  cases hnull

theorem slots_of_lt (hd : d < 16) : S.slots k q d = S.cell k (16 * q + d) := if_pos hd

/-- Setting a cell keeps the shape of a tree when its parent is there, and nothing is under it. -/
theorem tree_set (hT : PrefixTree 16 S.height S.full) (hk : k < S.height)
    (hup : S.full (k + 1) (q / 16)) (hunder : ∀ j, k = j + 1 → p = .null →
      ∀ d < 16, ¬ S.full j (16 * q + d)) :
    PrefixTree 16 S.height (S.set k q p).full := by
  constructor
  · intro m r hfull
    unfold full at hfull ⊢
    by_cases hself : m = k ∧ r = q
    · obtain ⟨rfl, rfl⟩ := hself
      rw [cell_set_of_ne (by omega)]
      exact Or.inl ⟨hk, hup⟩
    · rw [cell_set_of_ne hself] at hfull
      rcases hT.above m r hfull with ⟨hlt, habove⟩ | hroot
      · left
        refine ⟨hlt, ?_⟩
        by_cases hcell : m + 1 = k ∧ r / 16 = q
        · rw [cell_set, if_pos hcell]
          intro hnull
          have hr : 16 * q + r % 16 = r := by omega
          exact hunder m hcell.1.symm hnull (r % 16) (Nat.mod_lt _ (by decide)) (hr.symm ▸ hfull)
        · rwa [cell_set_of_ne hcell]
      · exact Or.inr hroot
  · intro hpos
    unfold full
    rw [cell_set_of_ne (by omega)]
    exact hT.root hpos

/-- A node over the root, which becomes its first child. -/
def raise (S : RadixShape α) (a : Nat) : RadixShape α where
  height := S.height + 1
  cell := (S.set (S.height + 1) 0 (.node a)).cell
  rootParent := .null

theorem cell_raise (hm : m ≤ S.height) :
    (S.raise a).cell m r = S.cell m r := cell_set_of_ne (by omega)

theorem cell_raise_root : (S.raise a).cell (S.height + 1) 0 = .node a :=
  cell_set_self

theorem tree_raise (hT : PrefixTree 16 S.height S.full) :
    PrefixTree 16 (S.raise a).height (S.raise a).full := by
  constructor
  · intro m r hfull
    by_cases hroot : m = S.height + 1 ∧ r = 0
    · exact Or.inr ⟨Nat.succ_pos _, hroot.1, hroot.2⟩
    · left
      have hold : S.full m r := by
        rwa [full, ← cell_set_of_ne hroot (p := .node a)]
      have hm := hT.le_height hold
      refine ⟨Nat.lt_succ_of_le hm, ?_⟩
      rcases hT.above m r hold with ⟨hlt, hup⟩ | ⟨-, rfl, rfl⟩
      · rwa [full, cell_raise hlt]
      · exact full_of_node cell_raise_root
  · intro _
    exact full_of_node cell_raise_root

theorem tight_raise (hS : Tight 16 S.full) (hT : PrefixTree 16 S.height S.full)
    (hpos : 0 < S.height) : Tight 16 (S.raise a).full := by
  intro m r hr
  by_cases hroot : m + 1 = S.height + 1 ∧ r = 0
  · refine ⟨0, by decide, ?_⟩
    obtain rfl : m = S.height := by omega
    rw [hroot.2, full, cell_raise (Nat.le_refl _)]
    exact hT.root hpos
  · have hold : S.full (m + 1) r := by
      rwa [full, ← cell_set_of_ne hroot (p := .node a)]
    have hm := hT.le_height hold
    obtain ⟨d, hd, hchild⟩ := hS m r hold
    exact ⟨d, hd, by rwa [full, cell_raise (by omega)]⟩

/-- A tree that is one node. -/
def single (h a : Nat) : RadixShape α where
  height := h
  cell m r := if m = h ∧ r = 0 then .node a else .null
  rootParent := .root

/-- No tree. -/
def none : RadixShape α where
  height := 0
  cell _ _ := .null
  rootParent := .null

theorem full_single {h : Nat} :
    (single h a : RadixShape α).full m r ↔ m = h ∧ r = 0 := by
  by_cases hroot : m = h ∧ r = 0
  · simp [full, single, hroot]
  · simp [full, single, hroot]

/-- New nodes on the path of `i`, and nothing else. -/
structure Grown (S S' : RadixShape α) (i : Nat) : Prop where
  height : S'.height = S.height
  rootParent : S'.rootParent = S.rootParent
  cell : ∀ m r, S'.cell m r = S.cell m r ∨ S.cell m r = .null ∧ 0 < m ∧ r = i / 16 ^ m

theorem Grown.refl (S : RadixShape α) (i : Nat) : S.Grown S i :=
  ⟨rfl, rfl, fun _ _ => Or.inl rfl⟩

theorem Grown.set_trans (hq : S.cell (k + 1) q = .null) (hi : q = i / 16 ^ (k + 1))
    (hG : (S.set (k + 1) q p).Grown S' i) : S.Grown S' i := by
  refine ⟨hG.height, hG.rootParent, fun m r => ?_⟩
  by_cases hcell : m = k + 1 ∧ r = q
  · obtain ⟨rfl, rfl⟩ := hcell
    exact Or.inr ⟨hq, Nat.succ_pos k, hi⟩
  · have hold := hG.cell m r
    rwa [cell_set_of_ne hcell] at hold

theorem Grown.items (hG : S.Grown S' i) : S'.cell 0 = S.cell 0 := by
  funext j
  rcases hG.cell 0 j with heq | ⟨-, hlt, -⟩
  · exact heq
  · omega

/-- Nodes on the path of `i` are gone, and nothing else. -/
structure Pruned (S S' : RadixShape α) (i : Nat) : Prop where
  height : S'.height = S.height
  rootParent : S'.rootParent = S.rootParent
  cell : ∀ m r, S'.cell m r = S.cell m r ∨ 0 < m ∧ S'.cell m r = .null ∧ r = i / 16 ^ m

theorem Pruned.refl (S : RadixShape α) (i : Nat) : S.Pruned S i :=
  ⟨rfl, rfl, fun _ _ => Or.inl rfl⟩

theorem Pruned.set_trans (hi : q = i / 16 ^ (k + 1))
    (hP : (S.set (k + 1) q .null).Pruned S' i) : S.Pruned S' i := by
  refine ⟨hP.height, hP.rootParent, fun m r => ?_⟩
  rcases hP.cell m r with heq | hnull
  · by_cases hcell : m = k + 1 ∧ r = q
    · obtain ⟨rfl, rfl⟩ := hcell
      rw [cell_set_self] at heq
      exact Or.inr ⟨Nat.succ_pos k, heq, hi⟩
    · rw [cell_set_of_ne hcell] at heq
      exact Or.inl heq
  · exact Or.inr hnull

theorem Pruned.items (hP : S.Pruned S' i) : S'.cell 0 = S.cell 0 := by
  funext j
  rcases hP.cell 0 j with heq | ⟨hlt, -⟩
  · exact heq
  · omega

theorem tightOff_set (hT : TightOff 16 i S.full) (hi : q = i / 16 ^ k) :
    TightOff 16 i (S.set k q .null).full := by
  intro m r hr hpath
  have hold : ∀ {m r}, (S.set k q .null).full m r → S.full m r := by
    intro m r hfull
    by_cases hcell : m = k ∧ r = q
    · rw [full, cell_set, if_pos hcell] at hfull
      exact absurd rfl hfull
    · rwa [full, ← cell_set_of_ne hcell (p := .null)]
  obtain ⟨d, hd, hchild⟩ := hT m r (hold hr) hpath
  refine ⟨d, hd, ?_⟩
  have hne : ¬ (m = k ∧ 16 * r + d = q) := by
    rintro ⟨rfl, hq⟩
    apply hpath
    rw [div_pow_succ, ← hi, ← hq, child_div hd]
  rwa [full, cell_set_of_ne hne]

/-- The item is stored at its index. -/
structure Stored (S S' : RadixShape α) (i : Nat) (v : α) : Prop where
  cell : S'.cell 0 = Function.update (S.cell 0) i (.item v)
  tight : TightOff 16 i S.full → Tight 16 S'.full

theorem Grown.tight (hG : S.Grown S' i) (hS : TightOff 16 i S.full)
    (hT : PrefixTree 16 S'.height (S'.set 0 i (.item v)).full) :
    Tight 16 (S'.set 0 i (.item v)).full := by
  intro m r hr
  have hitem : (S'.set 0 i (.item v)).full 0 i := by
    rw [full, cell_set_self]
    simp
  by_cases hpath : r = i / 16 ^ (m + 1)
  · refine ⟨digit 16 m i, digit_lt (by decide), ?_⟩
    rw [hpath, child_digit]
    exact hT.prefixes hitem ((Nat.le_succ m).trans (hT.le_height hr))
  · have hold : S.full (m + 1) r := by
      rw [full, cell_set_of_ne (by omega)] at hr
      rcases hG.cell (m + 1) r with heq | ⟨-, -, hpath'⟩
      · rwa [full, ← heq]
      · exact absurd hpath' hpath
    obtain ⟨d, hd, hchild⟩ := hS m r hold hpath
    refine ⟨d, hd, ?_⟩
    have hkept : S'.full m (16 * r + d) := by
      rcases hG.cell m (16 * r + d) with heq | ⟨hnull, -⟩
      · rwa [full, heq]
      · exact absurd hnull hchild
    by_cases hself : m = 0 ∧ 16 * r + d = i
    · rw [hself.1, hself.2]
      exact hitem
    · rwa [full, cell_set_of_ne hself]

end RadixShape

variable {t : Radix α} {a b d h : Nat} {gs : List Nat} {p : RadixPtr α}

/-- The node at an address is set. -/
def Radix.put (t : Radix α) (a : Nat) (n : RadixNode α) : Radix α :=
  { t with mem := Function.update t.mem a (some n) }

section

variable {n m : RadixNode α}

@[simp] theorem Radix.height_put : (t.put a n).height = t.height := rfl
@[simp] theorem Radix.count_put : (t.put a n).count = t.count := rfl
@[simp] theorem Radix.rnode_put : (t.put a n).rnode = t.rnode := rfl
@[simp] theorem Radix.heap_put : (t.put a n).heap = t.heap := rfl

@[simp] theorem Radix.mem_put_self : (t.put a n).mem a = some n := Function.update_self ..

theorem Radix.mem_put_of_ne (hb : b ≠ a) : (t.put a n).mem b = t.mem b := Function.update_of_ne hb ..

@[simp] theorem Radix.put_put : (t.put a n).put a m = t.put a m := by
  simp only [Radix.put, Function.update_idem]

theorem Radix.put_comm (hb : b ≠ a) : (t.put a n).put b m = (t.put b m).put a n := by
  simp only [Radix.put, Function.update_comm hb]

theorem Radix.put_eq_self (hn : t.mem a = some n) : t.put a n = t := by
  rw [Radix.put, ← hn, Function.update_eq_self]

theorem Radix.modify_node (hb : t.mem b = some n) (f : RadixNode α → RadixNode α) :
    t.modify (.node b) f = some (t.put b (f n)) := by
  rw [Radix.modify, hb]
  rfl

theorem Radix.setSlot_node (hb : t.mem b = some n) (hd : d < 16) :
    t.setSlot (.node b) d p =
      some (t.put b { n with slots := Function.update n.slots d p }) := by
  rw [Radix.setSlot, sizeLevel_eq, if_pos hd, Radix.modify_node hb]

/-- The node at an address is freed. -/
def Radix.drop (t : Radix α) (a : Nat) : Radix α :=
  { t with count := decUint32 t.count, mem := Function.update t.mem a none }

@[simp] theorem Radix.height_drop : (t.drop a).height = t.height := rfl
@[simp] theorem Radix.rnode_drop : (t.drop a).rnode = t.rnode := rfl
@[simp] theorem Radix.heap_drop : (t.drop a).heap = t.heap := rfl

@[simp] theorem Radix.mem_drop_self : (t.drop a).mem a = none := Function.update_self ..

theorem Radix.mem_drop_of_ne (hb : b ≠ a) : (t.drop a).mem b = t.mem b :=
  Function.update_of_ne hb ..

theorem radixTreeNodeFree_node (ha : t.mem a = some n) :
    radixTreeNodeFree t (.node a) = some (t.drop a) := by
  rw [radixTreeNodeFree, ha]
  rfl

theorem radixTreeNodeAlloc_nil (hgs : t.heap.grants = []) :
    radixTreeNodeAlloc t h = (.null, { t with heap := ⟨[], true⟩ }) := by
  rw [radixTreeNodeAlloc, hgs]

/-- One more node is counted, and the heap has granted it. -/
def Radix.charge (t : Radix α) (gs : List Nat) : Radix α :=
  { t with count := uint32 (t.count + 1), heap := ⟨gs, t.heap.refused⟩ }

theorem radixTreeNodeAlloc_cons (hgs : t.heap.grants = a :: gs) :
    radixTreeNodeAlloc t h = (.node a, (t.charge gs).put a (radixTreeNodeInit h)) := by
  rw [radixTreeNodeAlloc, hgs]
  rfl

end

variable [DecidableEq α]

/-- `count`, as it should be. -/
def occupied (slots : Nat → RadixPtr α) : Nat :=
  ((Finset.range 16).filter fun d => slots d ≠ .null).card

variable {slots : Nat → RadixPtr α} {e : Nat} {p : RadixPtr α}

theorem occupied_le : occupied slots ≤ 16 := by
  have hle := Finset.card_filter_le (Finset.range 16) fun d => slots d ≠ .null
  rwa [Finset.card_range] at hle

theorem occupied_eq_zero : occupied slots = 0 ↔ ∀ d < 16, slots d = .null := by
  rw [occupied, Finset.card_eq_zero, Finset.filter_eq_empty_iff]
  simp

theorem occupied_update_of_null (he : e < 16) (hnull : slots e = .null) (hp : p ≠ .null) :
    occupied (Function.update slots e p) = occupied slots + 1 := by
  have hins : ((Finset.range 16).filter fun d => Function.update slots e p d ≠ .null) =
      insert e ((Finset.range 16).filter fun d => slots d ≠ .null) := by
    ext d
    by_cases hd : d = e
    · simp [hd, he, hp]
    · simp [hd]
  rw [occupied, hins, Finset.card_insert_of_notMem (by simp [hnull]), occupied]

theorem occupied_update_null (he : e < 16) (hfull : slots e ≠ .null) :
    occupied (Function.update slots e .null) + 1 = occupied slots := by
  have hdel : ((Finset.range 16).filter fun d => Function.update slots e .null d ≠ .null) =
      ((Finset.range 16).filter fun d => slots d ≠ .null).erase e := by
    ext d
    by_cases hd : d = e
    · simp [hd]
    · simp [hd]
  rw [occupied, hdel, Finset.card_erase_add_one (by simp [he, hfull]), occupied]

namespace RadixShape

variable {S : RadixShape α} {k q m r : Nat}

/-- The record of the node of level `k + 1` with prefix `q`. -/
def record (S : RadixShape α) (k q : Nat) : RadixNode α where
  slots := S.slots k q
  parent := S.parent k q
  offset := q % 16
  count := occupied (S.slots k q)
  height := k + 1

theorem record_set_of_ne (hslot : ¬ (m = k ∧ r = q / 16)) (hparent : ¬ (m + 2 = k ∧ r / 16 = q)) :
    (S.set k q p).record m r = S.record m r := by
  simp only [record, slots_set_of_ne hslot, parent_set_of_ne hparent]

theorem record_set_parent : (S.set k q p).record k (q / 16) =
    { S.record k (q / 16) with
      slots := Function.update (S.slots k (q / 16)) (q % 16) p
      count := occupied (Function.update (S.slots k (q / 16)) (q % 16) p) } := by
  have hparent : (S.set k q p).parent k (q / 16) = S.parent k (q / 16) :=
    parent_set_of_ne (by omega)
  simp only [record, slots_set_parent, hparent]

end RadixShape

/-- The memory of `t` is that of a tree of shape `S`. -/
structure Radix.Holds (t : Radix α) (S : RadixShape α) : Prop where
  tree : PrefixTree 16 S.height S.full
  height_le : S.height ≤ 16
  rootParent : S.rootParent = .root ∨ S.rootParent = .null
  height : t.height = S.height
  rnode : t.rnode = S.cell S.height 0
  node : ∀ k q, S.full (k + 1) q → ∃ a, S.cell (k + 1) q = .node a ∧ t.mem a = some (S.record k q)
  only : ∀ a n, t.mem a = some n → ∃ k q, S.cell (k + 1) q = .node a
  inj : ∀ k q k' q' a, S.cell (k + 1) q = .node a → S.cell (k' + 1) q' = .node a →
    k = k' ∧ q = q'

end CcRpc
