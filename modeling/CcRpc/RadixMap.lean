import CcRpc.RadixRuns

/-!
# The radix tree as an ordered map

Insertion, deletion and the leftmost item against the map they stand for, and the records of the
nodes against each other.
-/

namespace CcRpc

open Prefixes

variable {A : Arena} {α : Type} [DecidableEq α] {t : Radix α} {S : RadixShape α}
  {m : Nat → Option α} {a : Nat} {n : RadixNode α}

/-- The records in memory fit together. -/
structure Radix.WellFormed (t : Radix α) : Prop where
  count : ∀ a n, t.mem a = some n → n.count = occupied n.slots
  nonempty : ∀ a n, t.mem a = some n → ∃ d < 16, n.slots d ≠ .null
  child : ∀ a n, t.mem a = some n → ∀ d < 16, n.slots d ≠ .null →
    (n.height = 1 ∧ ∃ v, n.slots d = .item v) ∨
      ∃ b c, n.slots d = .node b ∧ t.mem b = some c ∧ c.height + 1 = n.height
  parent : ∀ a n, t.mem a = some n → t.rnode ≠ .node a →
    ∃ b p, n.parent = .node b ∧ t.mem b = some p ∧ n.offset < 16 ∧ p.slots n.offset = .node a
  root : t.rnode = .null ∧ t.height = 0 ∨
    ∃ a n, t.rnode = .node a ∧ t.mem a = some n ∧ n.height = t.height
  nodes : ∃ live : Finset Nat, (∀ a, a ∈ live ↔ t.mem a ≠ none) ∧ t.count = live.card

theorem Radix.Holds.record_of_mem (hH : t.Holds S) (hn : t.mem a = some n) :
    ∃ k q, S.cell (k + 1) q = .node a ∧ n = S.record k q := by
  obtain ⟨k, q, hc⟩ := hH.only a n hn
  obtain ⟨b, hb, hmem⟩ := hH.node k q (RadixShape.full_of_node hc)
  rw [hc, RadixPtr.node.injEq] at hb
  rw [← hb, hn, Option.some_inj] at hmem
  exact ⟨k, q, hc, hmem⟩

theorem RadixInv.wellFormed (hI : RadixInv A t m S) : t.WellFormed := by
  have hH := hI.holds
  constructor
  · intro a n hn
    obtain ⟨k, q, -, rfl⟩ := hH.record_of_mem hn
    rfl
  · intro a n hn
    obtain ⟨k, q, hc, rfl⟩ := hH.record_of_mem hn
    obtain ⟨d, hd, hchild⟩ := hI.tight k q (RadixShape.full_of_node hc)
    rw [RadixShape.full, ← RadixShape.slots_of_lt hd] at hchild
    exact ⟨d, hd, hchild⟩
  · intro a n hn d hd hslot
    obtain ⟨k, q, hc, rfl⟩ := hH.record_of_mem hn
    have hcell : (S.record k q).slots d = S.cell k (16 * q + d) := RadixShape.slots_of_lt hd
    rw [hcell] at hslot ⊢
    cases k with
    | zero =>
      left
      refine ⟨rfl, ?_⟩
      rw [hI.items] at hslot ⊢
      obtain ⟨v, hv⟩ := Option.ne_none_iff_exists'.mp (mt RadixPtr.ofItem_eq_null.mpr hslot)
      exact ⟨v, by rw [hv, RadixPtr.ofItem]⟩
    | succ k =>
      obtain ⟨b, hb, hmem⟩ := hH.node k _ hslot
      exact Or.inr ⟨b, _, hb, hmem, rfl⟩
  · intro a n hn hroot
    obtain ⟨k, q, hc, rfl⟩ := hH.record_of_mem hn
    have hfull := RadixShape.full_of_node hc
    have hlt : k + 1 < S.height := by
      rw [← hH.root_ne hfull, hc]
      exact Ne.symm hroot
    have hup : S.full (k + 2) (q / 16) := by
      rcases hH.tree.above _ _ hfull with ⟨-, hup⟩ | ⟨-, heq, -⟩
      · exact hup
      · omega
    obtain ⟨b, hb, hmem⟩ := hH.node (k + 1) (q / 16) hup
    refine ⟨b, _, (if_neg (by omega)).trans hb, hmem, Nat.mod_lt q (by decide), ?_⟩
    exact RadixShape.slots_mod.trans hc
  · by_cases hnull : t.rnode = .null
    · left
      refine ⟨hnull, ?_⟩
      rw [hH.height]
      by_contra hne
      exact hH.rnode_ne_null (Nat.pos_of_ne_zero hne) hnull
    · right
      have hpos := hH.height_pos hnull
      obtain ⟨h, hh⟩ := Nat.exists_eq_succ_of_ne_zero hpos.ne'
      have hroot := hH.tree.root hpos
      rw [hh] at hroot
      obtain ⟨a, ha, hmem⟩ := hH.node h 0 hroot
      exact ⟨a, _, by rw [hH.rnode, hh, ← ha], hmem, by rw [hH.height, hh]; rfl⟩
  · obtain ⟨live, hlive, -, hcount⟩ := hI.counted
    exact ⟨live, fun a => (hlive a).trans Option.ne_none_iff_exists'.symm, hcount⟩

theorem RadixInv.empty (hI : RadixInv A t m S) (hm : ∀ i, m i = none) :
    t.height = 0 ∧ t.rnode = .null := by
  have hH := hI.holds
  have hzero : S.height = 0 := by
    by_contra hne
    obtain ⟨i, hi, -⟩ := hI.tight.exists_number (hH.tree.root (Nat.pos_of_ne_zero hne))
    exact hI.full_iff.mp hi (hm i)
  refine ⟨hH.height.trans hzero, ?_⟩
  by_contra hnull
  have hpos := hH.height_pos hnull
  omega

theorem RadixInv.rootLeft (hI : RadixInv A t m S) :
    (radixTreeRootLeft t = some .null ∧ ∀ i, m i = none) ∨
      ∃ i, IsLeast {i | m i ≠ none} i ∧ radixTreeRootLeft t = some (.ofItem (m i)) := by
  rcases hI.holds.rootLeft hI.tight with ⟨hleft, hnone⟩ | ⟨i, hi, hleft⟩
  · left
    refine ⟨hleft, fun i => ?_⟩
    by_contra hsome
    exact hnone i (hI.full_iff.mpr hsome)
  · right
    simp only [hI.full_iff] at hi
    exact ⟨i, hi, by rw [hleft, hI.items]⟩

/-- After every run in which the heap grants what it is asked for the tree is well formed and is the
map of the items stored: for the searches, and for the results of the next call. -/
theorem radixTree_orderedMap {ops : List (RadixOp α)}
    (hops : Runs.Along radixStep (RadixGranted A) radixTreeInit ops) :
    ∃ t, Runs.run radixStep radixTreeInit ops = some t ∧ t.WellFormed ∧
      ((∀ i, radixStored ops i = none) → t.height = 0 ∧ t.rnode = .null) ∧
      (∀ i, radixTreeHeight i ≤ t.height →
        radixTreeLookup t i = some (.ofItem (radixStored ops i))) ∧
      (∀ i, radixStored ops i ≠ none → radixTreeHeight i ≤ t.height) ∧
      (∀ i v gs, RadixGranted A t (.insert i v gs) → ∃ t',
        radixTreeInsert (t.given gs) i v =
            some (if radixStored ops i = none then 0 else -1, t') ∧
          (radixStored ops i ≠ none → t' = t.given gs)) ∧
      (∀ i, ∃ t', radixTreeDelete t i = some (.ofItem (radixStored ops i), t') ∧
        (radixStored ops i = none → t' = t)) ∧
      ((radixTreeRootLeft t = some .null ∧ ∀ i, radixStored ops i = none) ∨
        ∃ i, IsLeast {i | radixStored ops i ≠ none} i ∧
          radixTreeRootLeft t = some (.ofItem (radixStored ops i))) := by
  obtain ⟨t, S, hrun, hI⟩ := radix_run hops
  refine ⟨t, hrun, hI.wellFormed, hI.empty, fun i hi => ?_, fun i hi => hI.fits hi,
    fun i v gs hop => ?_, fun i => ?_, hI.rootLeft⟩
  · rw [hI.lookup, mod_of_height_le hi]
  · obtain ⟨t', hcall, hsame, -⟩ := hI.insert hop.1 hop.2.1 hop.2.2
    exact ⟨t', hcall, hsame⟩
  · obtain ⟨t', hcall, hsame, -⟩ := hI.delete i
    exact ⟨t', hcall, hsame⟩

/-- After two insertions. -/
theorem radixTree_orderedMap_two : ∃ t, Runs.run radixStep radixTreeInit radixTwo = some t ∧
    t.WellFormed ∧ ∃ i, IsLeast {i | radixStored radixTwo i ≠ none} i ∧
      radixTreeRootLeft t = some (.ofItem (radixStored radixTwo i)) := by
  obtain ⟨t, hrun, hwf, -, -, -, -, -, hleft⟩ := radixTree_orderedMap radixTwo_granted
  refine ⟨t, hrun, hwf, hleft.resolve_left fun h => ?_⟩
  exact absurd (h.2 0) (by decide)

end CcRpc
