import CcRpc.HeapBlocks
import CcRpc.RadixShape

/-!
# The memory of the nodes

Nodes come from `heap_malloc`. Their addresses lie in `all_heap`, so a tree has fewer nodes than the
32-bit count of its root can tell.
-/

namespace CcRpc

variable {A : Arena} {α : Type} {t t' : Radix α} {a : Nat} {gs : List Nat}

/-- The addresses that `heap_malloc` can return. -/
def Arena.InHeap (A : Arena) (a : Nat) : Prop := A.allHeap ≤ a ∧ a < A.allHeap + configHeap

/-- The live nodes are in the heap and counted in the root. -/
def Radix.Counted (A : Arena) (t : Radix α) : Prop :=
  ∃ live : Finset Nat, (∀ a, a ∈ live ↔ ∃ n, t.mem a = some n) ∧ (∀ a ∈ live, A.InHeap a) ∧
    t.count = live.card

/-- Addresses that `heap_malloc` can return in a state. -/
def Radix.Fresh (A : Arena) (t : Radix α) (grants : List Nat) : Prop :=
  grants.Nodup ∧ ∀ a ∈ grants, A.InHeap a ∧ t.mem a = none

/-- The node count is right, and so are the addresses that the heap is going to grant. -/
structure Radix.Stocked (A : Arena) (t : Radix α) : Prop where
  counted : t.Counted A
  fresh : t.Fresh A t.heap.grants

theorem configHeap_lt : configHeap < 2 ^ 32 := by
  norm_num [configHeap]

theorem card_le_configHeap {live : Finset Nat} (hlive : ∀ a ∈ live, A.InHeap a) :
    live.card ≤ configHeap := by
  have hsub : live ⊆ Finset.Ico A.allHeap (A.allHeap + configHeap) := by
    intro a ha
    rw [Finset.mem_Ico]
    exact hlive a ha
  have hcard := Finset.card_le_card hsub
  rwa [Nat.card_Ico, Nat.add_sub_cancel_left] at hcard

theorem Radix.Stocked.grant (hS : t.Stocked A) (hgs : t.heap.grants = a :: gs)
    (hheap : t'.heap.grants = gs) (hcount : t'.count = uint32 (t.count + 1))
    (hmem : ∀ x, (∃ n, t'.mem x = some n) ↔ x = a ∨ ∃ n, t.mem x = some n) : t'.Stocked A := by
  obtain ⟨⟨live, hlive, hin, hcard⟩, hnodup, hfresh⟩ := hS
  rw [hgs, List.nodup_cons] at hnodup
  rw [hgs] at hfresh
  obtain ⟨hina, hnone⟩ := hfresh a List.mem_cons_self
  have hnew : a ∉ live := by
    intro ha
    obtain ⟨n, hn⟩ := (hlive a).mp ha
    rw [hnone] at hn
    cases hn
  have hins : ∀ x ∈ insert a live, A.InHeap x := by
    intro x hx
    rcases Finset.mem_insert.mp hx with rfl | hx
    · exact hina
    · exact hin x hx
  have hle := card_le_configHeap hins
  have hlt := configHeap_lt
  rw [Finset.card_insert_of_notMem hnew] at hle
  constructor
  · refine ⟨insert a live, ?_, hins, ?_⟩
    · intro x
      rw [hmem, Finset.mem_insert, hlive]
    · rw [hcount, hcard, Finset.card_insert_of_notMem hnew]
      exact Nat.mod_eq_of_lt (hle.trans_lt hlt)
  · rw [hheap]
    refine ⟨hnodup.2, fun x hx => ?_⟩
    obtain ⟨hinx, hx'⟩ := hfresh x (List.mem_cons_of_mem _ hx)
    refine ⟨hinx, ?_⟩
    by_contra hsome
    rcases (hmem x).mp (Option.ne_none_iff_exists'.mp hsome) with rfl | ⟨n, hn⟩
    · exact hnodup.1 hx
    · rw [hx'] at hn
      cases hn

theorem Radix.Counted.drop (hC : t.Counted A) {n : RadixNode α} (ha : t.mem a = some n) :
    (t.drop a).Counted A := by
  obtain ⟨live, hlive, hin, hcard⟩ := hC
  have hold := (hlive a).mpr ⟨n, ha⟩
  have hpos := Finset.card_pos.mpr ⟨a, hold⟩
  refine ⟨live.erase a, ?_, fun x hx => hin x (Finset.mem_of_mem_erase hx), ?_⟩
  · intro x
    rw [Finset.mem_erase, hlive]
    by_cases hxa : x = a
    · simp [hxa]
    · simp [hxa, Radix.mem_drop_of_ne hxa]
  · change decUint32 t.count = _
    rw [hcard, decUint32, if_neg hpos.ne', Finset.card_erase_of_mem hold]

theorem Radix.mem_put_iff {n m : RadixNode α} {b : Nat} (hb : t.mem b = some m) (x : Nat) :
    (∃ n', (t.put b n).mem x = some n') ↔ ∃ n', t.mem x = some n' := by
  by_cases hxb : x = b
  · simp [hxb, hb]
  · rw [Radix.mem_put_of_ne hxb]

theorem Radix.Counted.put (hC : t.Counted A) {n m : RadixNode α} {b : Nat}
    (hb : t.mem b = some m) : (t.put b n).Counted A := by
  obtain ⟨live, hlive, hin, hcard⟩ := hC
  exact ⟨live, fun x => (hlive x).trans (Radix.mem_put_iff hb x).symm, hin, hcard⟩

theorem Radix.Stocked.put (hS : t.Stocked A) {n m : RadixNode α} {b : Nat}
    (hb : t.mem b = some m) : (t.put b n).Stocked A := by
  refine ⟨hS.counted.put hb, hS.fresh.1, fun x hx => ?_⟩
  obtain ⟨hin, hnone⟩ := hS.fresh.2 x hx
  refine ⟨hin, ?_⟩
  by_contra hsome
  obtain ⟨n', hn'⟩ := (Radix.mem_put_iff hb x).mp (Option.ne_none_iff_exists'.mp hsome)
  rw [hnone] at hn'
  cases hn'

end CcRpc
